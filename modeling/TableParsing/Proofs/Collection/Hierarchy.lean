import TableParsing.Proofs.Collection.Canonical
import TableParsing.Proofs.Collection.Cores
import TableParsing.Proofs.Collection.Follow
import TableParsing.Proofs.Collection.Numbers

/-!
# The hierarchy of shift-reduce tables

The more an algorithm looks at what follows, the less its table holds. The two tables without
lookaheads in their items have the same states, and one of them reduces under FOLLOW symbols only
(`RowEntry.lr0_of_slr1`). The states with lookaheads are other states, but along the same symbols
their actions are found in the table with FOLLOW sets: the cores of their complete items are held
there, the lookaheads are FOLLOW symbols, and the items have the same numbers
(`slr1_of_lr1_of_ends`).

So a table without conflicts stays so when its algorithm looks at more (`exists_hierarchy`): every
state is reached by some symbols, and two actions of a state with lookaheads meet in the state
without them that the same symbols lead to.
-/

namespace TableParsing

open ItemSystem NumberedItem FirstFollow

variable {g : Grammar} {s t : State} {symbol : Symbol} {a b : Action}

/-! ## Kinds of actions -/

/-- The action is an acceptance or a reduction. -/
inductive Action.Ends : Action → Prop
  | accept : Ends .accept
  | reduce (p : Production) : Ends (.reduce p)

namespace Table

/-- The action is one of the choices of a cell. -/
def Offers (table : Table) (row : Row) (symbol : Symbol) (a : Action) : Prop :=
  ∃ cell, table.get? row symbol = some cell ∧ a ∈ cell.choices

/-- Under a symbol without rules a state asks for shifts, acceptances and reductions. -/
theorem RowEntry.shift_or_ends {algorithm : Algorithm} (hn : g.isNonTerminal symbol = false)
    (h : RowEntry g algorithm s symbol a) :
    (∃ next, s.transitions.get? symbol = some next ∧ a = .shift next) ∨ a.Ends := by
  cases h with
  | shift hget _ => exact Or.inl ⟨_, hget, rfl⟩
  | goto _ hn' => exact absurd rfl (Grammar.ne_of_isNonTerminal hn' hn)
  | item _ hentry =>
      cases hentry with
      | accept => exact Or.inr .accept
      | reduce => exact Or.inr (.reduce _)

/-- What a state asks for with FOLLOW sets, it asks for without them. -/
theorem RowEntry.lr0_of_slr1 (h : RowEntry g .slr1 s symbol a) : RowEntry g .lr0 s symbol a := by
  cases h with
  | shift hget hn => exact .shift hget hn
  | goto hget hn => exact .goto hget hn
  | item hx hentry =>
      refine .item hx ?_
      cases hentry with
      | accept hx hsymbol _ => exact .accept hx hsymbol (Or.inl (by decide))
      | reduce hp hx hmay =>
          refine .reduce hp hx (List.mem_append.mpr ?_)
          rw [List.mem_singleton]
          exact ((followInRange_compute g).mem _ _ hmay).symm

end Table

namespace Collection

open Table

/-! ## States with and without lookaheads -/

section states

variable {fine coarse : List State} (hfine : Linked (computed g true) fine.length [] fine)
  (hcoarse : Linked (computed g false) coarse.length [] coarse) (hs : s ∈ fine) (ht : t ∈ coarse)
  (hcores : ∀ item, Holds fine s.id item → Holds coarse t.id item.core)
include hfine hcoarse hs ht hcores

/-- A numbered item of the state with lookaheads is in the list of the other one, with the same
number. -/
theorem mem_items_core {p : Production} (hp : p ∈ g.allProductions) {place : Nat}
    {lookahead : Option Symbol} (hx : dotted p place lookahead ∈ s.items) :
    dotted p place none ∈ t.items :=
  hcoarse.mem_items_of_holds ht hp (hfine.isLeading hs _ hx)
    (hcores _ ⟨s, hs, rfl, List.mem_map_of_mem hx⟩)

/-- The acceptances and reductions under a lookahead are found under it as a FOLLOW symbol. -/
theorem slr1_of_lr1_of_ends (hends : a.Ends) (h : RowEntry g .lr1 s symbol a) :
    RowEntry g .slr1 t symbol a := by
  cases h with
  | shift | goto => cases hends
  | item hx hentry =>
      cases hentry with
      | accept hx' hsymbol _ =>
          subst hx'
          exact .item (mem_items_core hfine hcoarse hs ht hcores List.mem_cons_self hx)
            (.accept rfl hsymbol (Or.inl (by decide)))
      | @reduce p _ hp hx' hmay =>
          subst hx'
          obtain rfl : _ = some symbol := hmay
          have hfollow := hfine.mayFollow_of_holds (r := p.toRule)
            ⟨s, hs, rfl, List.mem_map_of_mem hx⟩
          exact .item
            (mem_items_core hfine hcoarse hs ht hcores (List.mem_cons_of_mem _ hp) hx)
            (.reduce hp rfl ((MayFollow.iff_mem_follow hp).mp hfollow))

/-- Where the state with lookaheads shifts, the other one does. -/
theorem exists_slr1_shift_of_lr1 {next : Int} (h : RowEntry g .lr1 s symbol (.shift next)) :
    ∃ next', RowEntry g .slr1 t symbol (.shift next') := by
  cases h with
  | shift hget hn =>
      obtain ⟨item, hholds, hnext⟩ := hfine.exists_holds_of_goes ⟨s, hs, rfl, hget⟩
      obtain ⟨next', ⟨t', ht', hid, hget'⟩, -⟩ := hcoarse.exists_goes (hcores item hholds) hnext
      rw [hcoarse.eq_of_id_eq ht' ht hid] at hget'
      exact ⟨next', .shift hget' hn⟩
  | item _ hentry => cases hentry

/-- Two actions of the state with lookaheads are the same, if those of the other one are. -/
theorem lr1_unique_of_slr1 (hn : g.isNonTerminal symbol = false)
    (hunique : ∀ a b, RowEntry g .slr1 t symbol a → RowEntry g .slr1 t symbol b → a = b)
    (ha : RowEntry g .lr1 s symbol a) (hb : RowEntry g .lr1 s symbol b) : a = b := by
  have hends : ∀ {c}, c.Ends → RowEntry g .lr1 s symbol c → RowEntry g .slr1 t symbol c :=
    slr1_of_lr1_of_ends hfine hcoarse hs ht hcores
  -- A shift of the one state is not the end of the other.
  have hshift : ∀ {next c}, RowEntry g .lr1 s symbol (.shift next) → c.Ends →
      RowEntry g .lr1 s symbol c → False := by
    intro next c hnext hc h
    obtain ⟨next', hnext'⟩ := exists_slr1_shift_of_lr1 hfine hcoarse hs ht hcores hnext
    rw [← hunique _ _ hnext' (hends hc h)] at hc
    cases hc
  rcases ha.shift_or_ends hn with ⟨next, hget, rfl⟩ | haEnds <;>
    rcases hb.shift_or_ends hn with ⟨next', hget', rfl⟩ | hbEnds
  · rw [hget] at hget'
    rw [Option.some.inj hget']
  · exact (hshift ha hbEnds hb).elim
  · exact (hshift hb haEnds ha).elim
  · exact hunique a b (hends haEnds ha) (hends hbEnds hb)

end states

/-! ## Tables -/

section tables

variable {lr0 slr1 lr1 : Collection} (hslr1 : Built g .slr1 slr1) (hlr1 : Built g .lr1 lr1)

include hslr1 hlr1

/-- A state with lookaheads, the state without them along the same symbols, and the cores that the
latter holds. -/
theorem exists_states_of_leads {symbols : List Symbol} {number : Int}
    (hleads : Leads lr1.states 0 symbols number) :
    ∃ s ∈ lr1.states, s.id = number ∧ ∃ t ∈ slr1.states, Leads slr1.states 0 symbols t.id ∧
      ∀ item, Holds lr1.states s.id item → Holds slr1.states t.id item.core := by
  obtain ⟨number', hleads', hcores⟩ := exists_leads_core hlr1.linked hslr1.linked hleads
  obtain ⟨item, hholds⟩ := hlr1.linked.exists_holds_of_leads hleads
  obtain ⟨t, ht, rfl, -⟩ := hcores item hholds
  obtain ⟨s, hs, rfl, -⟩ := hholds
  exact ⟨s, hs, rfl, t, ht, hleads', hcores⟩

/-- Without conflicts under FOLLOW symbols, there are none under lookaheads. -/
theorem lr1_unique (hend : g.AvoidsEndMarker)
    (hunique : ∀ t ∈ slr1.states, ∀ symbol a b, RowEntry g .slr1 t symbol a →
      RowEntry g .slr1 t symbol b → a = b) :
    ∀ s ∈ lr1.states, ∀ symbol a b, RowEntry g .lr1 s symbol a → RowEntry g .lr1 s symbol b →
      a = b := by
  intro s hs symbol a b ha hb
  cases hn : g.isNonTerminal symbol with
  | true => exact hlr1.eq_of_rowEntry_nonTerminal hend hs hn ha hb
  | false =>
      obtain ⟨symbols, hleads⟩ := hlr1.linked.exists_leads hs
      obtain ⟨s', hs', hid, t, ht, -, hcores⟩ := exists_states_of_leads hslr1 hlr1 hleads
      rw [hlr1.linked.eq_of_id_eq hs' hs hid] at hcores
      exact lr1_unique_of_slr1 hlr1.linked hslr1.linked hs ht hcores hn
        (fun a b => hunique t ht symbol a b) ha hb

/-- The choices of a cell with lookaheads, and those of the cell along the same symbols without. -/
theorem offers_of_leads {symbols : List Symbol} {number number' : Int}
    (hleads : Leads lr1.states 0 symbols number) (hleads' : Leads slr1.states 0 symbols number')
    (symbol : Symbol) :
    (∀ a : Action, a.Ends → lr1.table.Offers (.state number) symbol a →
      slr1.table.Offers (.state number') symbol a) ∧
    ((∃ next, lr1.table.Offers (.state number) symbol (.shift next)) →
      ∃ next, slr1.table.Offers (.state number') symbol (.shift next)) := by
  obtain ⟨s, hs, rfl, t, ht, hleads'', hcores⟩ := exists_states_of_leads hslr1 hlr1 hleads
  obtain rfl := hslr1.linked.leads_unique symbols hleads'' hleads'
  constructor
  · intro a hends hoffers
    obtain ⟨s', hs', hid, hentry⟩ := (hlr1.choice_iff _ _ _).mp hoffers
    rw [hlr1.linked.eq_of_id_eq hs' hs hid] at hentry
    exact (hslr1.choice_iff _ _ _).mpr ⟨t, ht, rfl,
      slr1_of_lr1_of_ends hlr1.linked hslr1.linked hs ht hcores hends hentry⟩
  · rintro ⟨next, hoffers⟩
    obtain ⟨s', hs', hid, hentry⟩ := (hlr1.choice_iff _ _ _).mp hoffers
    rw [hlr1.linked.eq_of_id_eq hs' hs hid] at hentry
    obtain ⟨next', hentry'⟩ :=
      exists_slr1_shift_of_lr1 hlr1.linked hslr1.linked hs ht hcores hentry
    exact ⟨next', (hslr1.choice_iff _ _ _).mpr ⟨t, ht, rfl, hentry'⟩⟩

end tables

/-- A grammar is read from a text. Then all three tables can be built. Any symbols that lead
somewhere in the automaton with lookaheads do so in the one of the table with FOLLOW sets; the
acceptances and reductions in a cell there are among the choices of the cell of the latter, and
where the former shifts, the latter does. The choices of a cell with FOLLOW sets are among those of
the same cell without. So if there are no conflicts without FOLLOW sets, there are none with them,
and then there are none with lookaheads. -/
theorem exists_hierarchy {text : String} (hread : Grammar.read text = .ok g) :
    ∃ lr0 slr1 lr1 : Collection,
      build g (compute g) .lr0 = .ok lr0 ∧ build g (compute g) .slr1 = .ok slr1 ∧
      build g (compute g) .lr1 = .ok lr1 ∧
      (∀ symbols number, Leads lr1.states 0 symbols number →
        (∃ number', Leads slr1.states 0 symbols number') ∧
        ∀ number', Leads slr1.states 0 symbols number' → ∀ symbol,
          (∀ a : Action, a.Ends → lr1.table.Offers (.state number) symbol a →
            slr1.table.Offers (.state number') symbol a) ∧
          ((∃ next, lr1.table.Offers (.state number) symbol (.shift next)) →
            ∃ next, slr1.table.Offers (.state number') symbol (.shift next))) ∧
      (∀ number symbol a, slr1.table.Offers (.state number) symbol a →
        lr0.table.Offers (.state number) symbol a) ∧
      (lr0.table.conflicts = [] → slr1.table.conflicts = []) ∧
      (slr1.table.conflicts = [] → lr1.table.conflicts = []) := by
  have hend := Grammar.avoidsEndMarker_of_read hread
  have h₀ : Algorithm.lr0 ∈ Algorithm.shiftReduce := by decide
  have hS : Algorithm.slr1 ∈ Algorithm.shiftReduce := by decide
  have h₁ : Algorithm.lr1 ∈ Algorithm.shiftReduce := by decide
  obtain ⟨lr0, hbuild₀, hlr0⟩ := exists_built g h₀
  obtain ⟨slr1, hbuildS, hslr1⟩ := exists_built g hS
  obtain ⟨lr1, hbuild₁, hlr1⟩ := exists_built g h₁
  have hstates : slr1.states = lr0.states :=
    (states_build rfl hbuildS).trans (states_build rfl hbuild₀).symm
  refine ⟨lr0, slr1, lr1, hbuild₀, hbuildS, hbuild₁, ?_, ?_, ?_, ?_⟩
  · intro symbols number hleads
    obtain ⟨-, -, -, t, -, hleads', -⟩ := exists_states_of_leads hslr1 hlr1 hleads
    exact ⟨⟨t.id, hleads'⟩, fun _ h => offers_of_leads hslr1 hlr1 hleads h⟩
  · intro number symbol a hoffers
    obtain ⟨t, ht, hid, hentry⟩ := (hslr1.choice_iff _ _ _).mp hoffers
    exact (hlr0.choice_iff _ _ _).mpr ⟨t, hstates ▸ ht, hid, hentry.lr0_of_slr1⟩
  · intro hclean
    rw [conflicts_eq_nil_iff h₀ hbuild₀] at hclean
    rw [conflicts_eq_nil_iff hS hbuildS, hstates]
    intro t ht symbol a b ha hb
    exact hclean t ht symbol a b ha.lr0_of_slr1 hb.lr0_of_slr1
  · intro hclean
    rw [conflicts_eq_nil_iff hS hbuildS] at hclean
    rw [conflicts_eq_nil_iff h₁ hbuild₁]
    exact lr1_unique hslr1 hlr1 hend hclean

/-- Nested brackets need FOLLOW sets to decide whether another bracket is opened, and no
lookaheads. -/
theorem exists_hierarchy_nested :
    ∃ lr0 slr1 lr1 : Collection,
      build .nested (compute .nested) .lr0 = .ok lr0 ∧
      build .nested (compute .nested) .slr1 = .ok slr1 ∧
      build .nested (compute .nested) .lr1 = .ok lr1 ∧
      lr0.table.conflicts.length = 2 ∧ slr1.table.conflicts = [] ∧ lr1.table.conflicts = [] := by
  obtain ⟨lr0, slr1, lr1, hlr0, hslr1, hlr1, -, -, -, hclean⟩ :=
    exists_hierarchy Grammar.read_nested
  have hconflicts : (build .nested (compute .nested) .lr0).toOption.map (fun c =>
      c.table.conflicts.length) = some 2 := by decide +kernel
  have hnone : (build .nested (compute .nested) .slr1).toOption.map (fun c =>
      c.table.conflicts.isEmpty) = some true := by decide +kernel
  rw [hlr0] at hconflicts
  rw [hslr1] at hnone
  have hslr1' := List.isEmpty_iff.mp (Option.some.inj hnone)
  exact ⟨lr0, slr1, lr1, hlr0, hslr1, hlr1, Option.some.inj hconflicts, hslr1', hclean hslr1'⟩

end Collection

end TableParsing
