import TableParsing.Proofs.Collection.Built
import TableParsing.Proofs.Collection.Cores
import TableParsing.Proofs.FirstFollow.Soundness

/-!
# The states with lookaheads refine those without

Along the same symbols, the cores of the items of a state with lookaheads are items of the state
without (`exists_leads_core`). They are all of them, and no symbols lead on in the one automaton
only, if every non-terminal begins with something (`exists_leads_fine`), as it does where all of them
derive words (`eachBegins_of_productive`): then what stands behind a non-terminal always foretells a
lookahead, so an item with a lookahead calls for something wherever its core does
(`exists_calledFor_of_core`). Where the FIRST set of a non-terminal is empty, an item with that
non-terminal behind another calls for nothing, and the automaton with lookaheads may have fewer
paths.
-/

namespace TableParsing.Collection

open ItemSystem FirstFollow

variable {g : Grammar} {fine coarse : List State} {symbols : List Symbol} {number number' : Int}

/-- The items of the state of a number. -/
def itemsAt (states : List State) (number : Int) : Set Item := {item | Holds states number item}

/-- The items of the state of a number without their lookaheads. -/
def coresAt (states : List State) (number : Int) : Set Item := Item.core '' itemsAt states number

/-- The item has a counterpart in a state with lookaheads, which has the same core. -/
def Covered (fine : List State) (number : Int) (item : Item) : Prop :=
  ∃ held, Holds fine number held ∧ held.core = item

section lookaheads

variable (hfine : Linked (computed g true) fine.length [] fine)
include hfine

/-- Held items have lookaheads. -/
theorem exists_lookahead_of_holds {item : Item} (hholds : Holds fine number item) :
    ∃ following, item.lookahead = some following := by
  obtain ⟨p, -, place, -, lookahead, hl, rfl⟩ := hfine.exists_production_of_holds hholds
  rw [allLookaheads, hasLookahead_computed, if_pos rfl] at hl
  obtain ⟨following, -, rfl⟩ := List.mem_map.mp hl
  exact ⟨following, rfl⟩

/-- Where every non-terminal begins with something, an item calls for whatever its core calls
for. -/
theorem exists_calledFor_of_core (hbegins : EachBegins g) {item : Item}
    (hholds : Holds fine number item) {called : NumberedItem}
    (hcalled : called ∈ (computed g false).calledFor item.core) :
    ∃ other ∈ (computed g true).calledFor item, other.toItem.core = called.toItem := by
  obtain ⟨p, hp, hnext, lookahead, hl, rfl⟩ := mem_calledFor.mp hcalled
  rw [lookaheads_of_not rfl, List.mem_singleton] at hl
  obtain ⟨following, hfollowing⟩ := exists_lookahead_of_holds hfine hholds
  obtain ⟨next, hforetells⟩ := hbegins.exists_foretells following item.trailer
  have hlookahead : some next ∈ (computed g true).lookaheads item := by
    rw [mem_lookaheads rfl]
    refine ⟨next, rfl, hforetells.imp_right ?_⟩
    rintro ⟨hε, rfl⟩
    exact ⟨hε, hfollowing⟩
  refine ⟨.dotted p 0 (some next), mem_calledFor.mpr ⟨p, hp, hnext, _, hlookahead, rfl⟩, ?_⟩
  rw [hl]
  rfl

/-- Where every non-terminal begins with something, covered items go along paths. -/
theorem carries_covered (hbegins : EachBegins g) :
    Carries (computed g false) fine (Covered fine) where
  start := ⟨_, hfine.holds_start, rfl⟩
  called := by
    rintro number _ ⟨held, hholds, rfl⟩ called hcalled
    obtain ⟨other, hother, hcore⟩ := exists_calledFor_of_core hfine hbegins hholds hcalled
    exact ⟨other.toItem, hfine.holds_called hholds hother, hcore⟩
  exists_goes := by
    rintro number _ symbol ⟨held, hholds, rfl⟩ hnext
    obtain ⟨next, hgoes, -⟩ := hfine.exists_goes hholds hnext
    exact ⟨next, hgoes⟩
  advance := by
    rintro number _ symbol next ⟨held, hholds, rfl⟩ hnext hgoes
    obtain ⟨next', hgoes', hadvanced⟩ := hfine.exists_goes hholds hnext
    rw [hfine.goes_unique hgoes hgoes']
    exact ⟨held.advance, hadvanced, rfl⟩

/-- **Paths with lookaheads**: where every non-terminal begins with something, symbols that lead
somewhere in the automaton without lookaheads do so in the one with them, and the items there are
covered. -/
theorem exists_leads_fine (hbegins : EachBegins g)
    (hcoarse : Linked (computed g false) coarse.length [] coarse)
    (hleads : Leads coarse 0 symbols number') :
    ∃ number, Leads fine 0 symbols number ∧
      ∀ item, Holds coarse number' item → Covered fine number item :=
  exists_leads_of_carries hcoarse (carries_covered hfine hbegins) hleads

end lookaheads

section refinement

variable (hfine : Linked (computed g true) fine.length [] fine)
  (hcoarse : Linked (computed g false) coarse.length [] coarse)
include hfine hcoarse

/-- Along the same symbols, cores are items. -/
theorem coresAt_subset_itemsAt (hleads : Leads fine 0 symbols number)
    (hleads' : Leads coarse 0 symbols number') : coresAt fine number ⊆ itemsAt coarse number' := by
  obtain ⟨_, hleads'', hcores⟩ := exists_leads_core hfine hcoarse hleads
  obtain rfl := hcoarse.leads_unique symbols hleads'' hleads'
  rintro _ ⟨item, hholds, rfl⟩
  exact hcores item hholds

/-- Along the same symbols, all items are cores, if every non-terminal begins with something. -/
theorem itemsAt_subset_coresAt (hbegins : EachBegins g) (hleads : Leads fine 0 symbols number)
    (hleads' : Leads coarse 0 symbols number') : itemsAt coarse number' ⊆ coresAt fine number := by
  obtain ⟨_, hleads'', hcovered⟩ := exists_leads_fine hfine hbegins hcoarse hleads'
  obtain rfl := hfine.leads_unique symbols hleads'' hleads
  intro item hholds
  exact hcovered item hholds

end refinement

/-- Both collections of a grammar can be built. Symbols that lead somewhere in the automaton with
lookaheads do so in the one without, and the items of the former state are, without their
lookaheads, items of the latter. If moreover no non-terminal has an empty FIRST set, the same
symbols lead somewhere in both, and the items are the same. -/
theorem exists_refinement (g : Grammar) :
    ∃ lr0 lr1 : Collection,
      build g (compute g) .lr0 = .ok lr0 ∧ build g (compute g) .lr1 = .ok lr1 ∧
      (∀ symbols number, Leads lr1.states 0 symbols number →
        (∃ number', Leads lr0.states 0 symbols number') ∧
        ∀ number', Leads lr0.states 0 symbols number' →
          coresAt lr1.states number ⊆ itemsAt lr0.states number') ∧
      (EachBegins g → ∀ symbols,
        ((∃ number, Leads lr1.states 0 symbols number) ↔
          ∃ number', Leads lr0.states 0 symbols number') ∧
        ∀ number number', Leads lr1.states 0 symbols number → Leads lr0.states 0 symbols number' →
          coresAt lr1.states number = itemsAt lr0.states number') := by
  obtain ⟨lr0, hbuild₀, hlr0⟩ :=
    exists_built g (show Algorithm.lr0 ∈ Algorithm.shiftReduce by decide)
  obtain ⟨lr1, hbuild₁, hlr1⟩ :=
    exists_built g (show Algorithm.lr1 ∈ Algorithm.shiftReduce by decide)
  have hfine : Linked (computed g true) lr1.states.length [] lr1.states := hlr1.linked
  have hcoarse : Linked (computed g false) lr0.states.length [] lr0.states := hlr0.linked
  have honto : ∀ symbols number, Leads lr1.states 0 symbols number →
      ∃ number', Leads lr0.states 0 symbols number' := by
    intro symbols number hleads
    obtain ⟨number', hleads', -⟩ := exists_leads_core hfine hcoarse hleads
    exact ⟨number', hleads'⟩
  refine ⟨lr0, lr1, hbuild₀, hbuild₁, ?_, ?_⟩
  · intro symbols number hleads
    exact ⟨honto symbols number hleads, fun _ => coresAt_subset_itemsAt hfine hcoarse hleads⟩
  · intro hbegins symbols
    constructor
    · constructor
      · rintro ⟨number, hleads⟩
        exact honto symbols number hleads
      · rintro ⟨number', hleads'⟩
        obtain ⟨number, hleads, -⟩ := exists_leads_fine hfine hbegins hcoarse hleads'
        exact ⟨number, hleads⟩
    · intro number number' hleads hleads'
      apply Set.Subset.antisymm
      · exact coresAt_subset_itemsAt hfine hcoarse hleads hleads'
      · exact itemsAt_subset_coresAt hfine hcoarse hbegins hleads hleads'

/-- Nested brackets have more states with lookaheads than without, reached by the same symbols. -/
theorem exists_refinement_nested :
    ∃ lr0 lr1 : Collection,
      build .nested (compute .nested) .lr0 = .ok lr0 ∧
      build .nested (compute .nested) .lr1 = .ok lr1 ∧
      lr0.states.length = 5 ∧ lr1.states.length = 8 ∧
      ∀ symbols, (∃ number, Leads lr1.states 0 symbols number) ↔
        ∃ number', Leads lr0.states 0 symbols number' := by
  obtain ⟨lr0, lr1, hbuild₀, hbuild₁, -, hsame⟩ := exists_refinement .nested
  have hlength₀ : (build .nested (compute .nested) .lr0).toOption.map (fun c =>
      c.states.length) = some 5 := by decide +kernel
  have hlength₁ : (build .nested (compute .nested) .lr1).toOption.map (fun c =>
      c.states.length) = some 8 := by decide +kernel
  rw [hbuild₀] at hlength₀
  rw [hbuild₁] at hlength₁
  have hε : Grammar.nested.isNonTerminal epsilon = false := by decide
  have hbegins := eachBegins_of_productive hε Grammar.productive_nested
  exact ⟨lr0, lr1, hbuild₀, hbuild₁, Option.some.inj hlength₀, Option.some.inj hlength₁,
    fun symbols => (hsame hbegins symbols).1⟩

/-- Behind `A` stands a non-terminal that begins with nothing. So the item with the dot before `A`
calls for nothing with a lookahead, and `a` leads nowhere. -/
example :
    let g : Grammar :=
      ⟨[⟨"S", ["A", "L"]⟩, ⟨"A", ["a"]⟩, ⟨"L", ["L", "x"]⟩], List.cons_ne_nil _ _, []⟩
    let symbols (hasLookahead : Bool) :=
      (construct (computed g hasLookahead)).states.head?.map fun s => s.transitions.keys
    ¬ EachBegins g ∧ symbols false = some ["S", "A", "a"] ∧ symbols true = some ["S", "A"] := by
  decide +kernel

end TableParsing.Collection
