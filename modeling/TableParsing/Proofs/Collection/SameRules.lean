import TableParsing.Proofs.Collection.Canonical
import TableParsing.Proofs.Collection.Conflicts
import TableParsing.Proofs.FirstFollow.SameRules

/-!
# Automata of grammars with the same rules

If the rules of a grammar are reordered, the items stay the same up to their numbers, but the closures
list them in another order, so the states are found in another order and get other numbers, and of
two productions with the same rule another one may be kept. What stays is what symbols lead to: the
same symbols lead to states with the same items in both automata (`exists_leads_sameRules`). As no
two states of an automaton have the same items, this matches the states one by one, and the
transitions with them (`Matches.renumbering`).

Whether a cell is a conflict depends on the items and the transitions of its state only, so the
conflicts are in the matching cells (`conflictAt_iff_of_renumbering`). With the FIRST and FOLLOW sets,
which are the same, that is all that the order of the rules does not change
(`exists_renumbering_of_perm`).
-/

namespace TableParsing

open ItemSystem NumberedItem
open Grammar (SameRules)

variable {g g' : Grammar}

/-! ## Items -/

/-- Grammars with the same rules have the same lookaheads for called items. -/
theorem ItemSystem.lookaheads_eq_of_sameRules (h : SameRules g g') (hasLookahead : Bool)
    (item : Item) :
    (computed g hasLookahead).lookaheads item = (computed g' hasLookahead).lookaheads item := by
  have hfirst : FirstFollow.firstOfSequence (computed g hasLookahead).first item.trailer =
      FirstFollow.firstOfSequence (computed g' hasLookahead).first item.trailer :=
    FirstFollow.firstOfSequence_compute_eq h item.trailer
  unfold lookaheads
  rw [hfirst]
  rfl

/-- The algorithm reduces under the same symbols. -/
theorem Table.mayReduce_iff_of_sameRules (h : SameRules g g') {algorithm : Algorithm}
    {lhs : Symbol} {lookahead : Option Symbol} {symbol : Symbol} :
    MayReduce g algorithm lhs lookahead symbol ↔ MayReduce g' algorithm lhs lookahead symbol := by
  cases algorithm with
  | lr0 => simp [MayReduce, h.mem_terminals_iff]
  | slr1 => rw [MayReduce, MayReduce, FirstFollow.setOf_follow_eq h]
  | ll1 | lr1 => exact Iff.rfl

/-- The same items act. -/
theorem Table.acts_iff_of_sameRules (h : SameRules g g') {algorithm : Algorithm} {item : Item}
    {symbol : Symbol} : Acts g algorithm item symbol ↔ Acts g' algorithm item symbol := by
  rw [Acts, Acts, h.augmentedStart_eq, h.isNonTerminal_eq, mayReduce_iff_of_sameRules h]

namespace Collection

/-- The items of grammars with the same rules are the same. -/
theorem itemMap_sameRules (h : SameRules g g') (hasLookahead : Bool) :
    ItemMap (computed g hasLookahead) (computed g' hasLookahead) id where
  next?_eq _ := rfl
  advance_eq _ := rfl
  start_eq := by
    show Item.dotted g.augmentedProduction.toRule 0 _ = .dotted g'.augmentedProduction.toRule 0 _
    rw [h.augmentedProduction_eq]
    rfl
  exists_called := by
    intro item called hcalled
    obtain ⟨p, hp, hnext, lookahead, hl, rfl⟩ := mem_calledFor.mp hcalled
    obtain ⟨p', hp', hrule⟩ := h.exists_production hp
    rw [lookaheads_eq_of_sameRules h] at hl
    rw [← hrule] at hnext
    refine ⟨.dotted p' 0 lookahead, mem_calledFor.mpr ⟨p', hp', hnext, lookahead, hl, rfl⟩, ?_⟩
    show Item.dotted p'.toRule 0 lookahead = .dotted p.toRule 0 lookahead
    rw [hrule]

/-! ## States -/

/-- The states of two numbers, one in each of two automata, hold the same items. -/
def Alike (states states' : List State) (number number' : Int) : Prop :=
  ∀ item, Holds states number item ↔ Holds states' number' item

/-- A state of an automaton is matched from the other side. -/
theorem Alike.symm {states states' : List State} {number number' : Int}
    (h : Alike states states' number number') : Alike states' states number' number :=
  fun item => (h item).symm

namespace Linked

variable {system : ItemSystem} {states : List State}
  (h : Linked system states.length [] states)
include h

/-- A state holds the items of its list. -/
theorem holds_id_iff {s : State} (hs : s ∈ states) {item : Item} :
    Holds states s.id item ↔ item ∈ itemSet s.items := by
  rw [itemSet, List.mem_toFinset]
  constructor
  · rintro ⟨t, ht, hid, hitem⟩
    rwa [h.eq_of_id_eq ht hs hid] at hitem
  · intro hitem
    exact ⟨s, hs, rfl, hitem⟩

/-- States that hold the same items have the same number. -/
theorem eq_of_holds_iff {s t : State} (hs : s ∈ states) (ht : t ∈ states)
    (hitems : ∀ item, Holds states s.id item ↔ Holds states t.id item) : s.id = t.id := by
  rw [h.eq_of_itemSet_eq hs ht]
  ext item
  rw [← h.holds_id_iff hs, ← h.holds_id_iff ht, hitems]

/-- A path from the first state leads to a state. -/
theorem exists_state_of_leads {symbols : List Symbol} {number : Int}
    (hleads : Leads states 0 symbols number) : ∃ s ∈ states, s.id = number := by
  obtain ⟨item, s, hs, hid, -⟩ := h.exists_holds_of_leads hleads
  exact ⟨s, hs, hid⟩

end Linked

section SameRules

variable (h : SameRules g g') {hasLookahead : Bool} {states states' : List State}
  (hlinked : Linked (computed g hasLookahead) states.length [] states)
  (hlinked' : Linked (computed g' hasLookahead) states'.length [] states')
include h hlinked hlinked'

/-- The same symbols lead to states with the same items. -/
theorem exists_leads_sameRules {symbols : List Symbol} {number : Int}
    (hleads : Leads states 0 symbols number) :
    ∃ number', Leads states' 0 symbols number' ∧ Alike states states' number number' := by
  obtain ⟨number', hleads', hto⟩ :=
    exists_leads_map hlinked hlinked' (itemMap_sameRules h hasLookahead) hleads
  obtain ⟨back, hback, hfrom⟩ :=
    exists_leads_map hlinked' hlinked (itemMap_sameRules h.symm hasLookahead) hleads'
  obtain rfl := hlinked.leads_unique symbols hback hleads
  exact ⟨number', hleads', fun item => ⟨hto item, hfrom item⟩⟩

/-- Every state has one with the same items in the other automaton. -/
theorem exists_alike {s : State} (hs : s ∈ states) :
    ∃ s' ∈ states', Alike states states' s.id s'.id := by
  obtain ⟨symbols, hleads⟩ := hlinked.exists_leads hs
  obtain ⟨number', hleads', halike⟩ := exists_leads_sameRules h hlinked hlinked' hleads
  obtain ⟨s', hs', rfl⟩ := hlinked'.exists_state_of_leads hleads'
  exact ⟨s', hs', halike⟩

/-- Where a symbol leads on from a state, it does so from the one with the same items, to a state
that again has the same items. -/
theorem exists_get?_of_alike {s s' : State} (hs : s ∈ states) (hs' : s' ∈ states')
    (halike : Alike states states' s.id s'.id) {symbol : Symbol} {next : Int}
    (hget : s.transitions.get? symbol = some next) :
    ∃ next', s'.transitions.get? symbol = some next' ∧ Alike states states' next next' := by
  obtain ⟨symbols, hleads⟩ := hlinked.exists_leads hs
  obtain ⟨next', hleads', hnext⟩ :=
    exists_leads_sameRules h hlinked hlinked' (hleads.tail ⟨s, hs, rfl, hget⟩)
  obtain ⟨middle', hmiddle, t', ht', rfl, hget'⟩ := leads_append_singleton.mp hleads'
  -- The path without the symbol leads to a state with the items of the given one.
  obtain ⟨number', hnumber, hitems⟩ := exists_leads_sameRules h hlinked hlinked' hleads
  obtain rfl := hlinked'.leads_unique symbols hnumber hmiddle
  have hid := hlinked'.eq_of_holds_iff ht' hs' fun item => (hitems item).symm.trans (halike item)
  rw [hlinked'.eq_of_id_eq ht' hs' hid] at hget'
  exact ⟨next', hget', hnext⟩

end SameRules

/-! ## Renumbering -/

/-- The numbers of some states. -/
def ids (states : List State) : Set Int := {number | ∃ s ∈ states, s.id = number}

/-- A change of numbers that makes one automaton of the other: the states have the same items,
whatever the numbers of these are, and the same transitions. -/
structure Renumbering (states states' : List State) (f : Int → Int) : Prop where
  /-- The numbers of the states are matched one by one. -/
  bijOn : Set.BijOn f (ids states) (ids states')
  /-- The first state stays the first. -/
  zero : f 0 = 0
  /-- States have the same items. -/
  items : ∀ s ∈ states, ∀ s' ∈ states', s'.id = f s.id → itemSet s'.items = itemSet s.items
  /-- Transitions lead to states that are matched. -/
  transitions : ∀ s ∈ states, ∀ s' ∈ states', s'.id = f s.id → ∀ symbol,
    s'.transitions.get? symbol = (s.transitions.get? symbol).map f

/-- A change of numbers that goes to states with the same items. -/
def Matches (states states' : List State) (f : Int → Int) : Prop :=
  ∀ number ∈ ids states, f number ∈ ids states' ∧ Alike states states' number (f number)

/-- The first state has a number. -/
theorem Linked.zero_mem_ids {system : ItemSystem} {states : List State}
    (h : Linked system states.length [] states) : 0 ∈ ids states :=
  h.exists_state_of_leads (Leads.refl states 0)

section SameRules

variable (h : SameRules g g') {hasLookahead : Bool} {states states' : List State}
  (hlinked : Linked (computed g hasLookahead) states.length [] states)
  (hlinked' : Linked (computed g' hasLookahead) states'.length [] states')
include h hlinked hlinked'

/-- There is a change of numbers that goes to states with the same items. -/
theorem exists_matches : ∃ f, Matches states states' f := by
  have hexists : ∀ number, ∃ number', number ∈ ids states →
      number' ∈ ids states' ∧ Alike states states' number number' := by
    intro number
    by_cases hmem : number ∈ ids states
    · obtain ⟨s, hs, rfl⟩ := hmem
      obtain ⟨s', hs', halike⟩ := exists_alike h hlinked hlinked' hs
      exact ⟨s'.id, fun _ => ⟨⟨s', hs', rfl⟩, halike⟩⟩
    · exact ⟨number, fun hmem' => absurd hmem' hmem⟩
  choose f hf using hexists
  exact ⟨f, hf⟩

variable {f : Int → Int} (hf : Matches states states' f)
include hf

omit h hlinked in
/-- A state with the same items has the number that the change goes to. -/
theorem Matches.eq_of_alike {number number' : Int} (hnumber : number ∈ ids states)
    (hnumber' : number' ∈ ids states') (halike : Alike states states' number number') :
    number' = f number := by
  obtain ⟨s', hs', rfl⟩ := hnumber'
  obtain ⟨⟨t', ht', hid⟩, halike'⟩ := hf number hnumber
  rw [← hid] at halike' ⊢
  exact hlinked'.eq_of_holds_iff hs' ht' fun item => (halike item).symm.trans (halike' item)

/-- The numbers are matched one by one. -/
theorem Matches.bijOn : Set.BijOn f (ids states) (ids states') := by
  refine ⟨fun number hnumber => (hf number hnumber).1, ?_, ?_⟩
  · rintro - ⟨s, hs, rfl⟩ - ⟨t, ht, rfl⟩ heq
    refine hlinked.eq_of_holds_iff hs ht fun item => ?_
    rw [(hf s.id ⟨s, hs, rfl⟩).2 item, heq, (hf t.id ⟨t, ht, rfl⟩).2 item]
  · rintro - ⟨s', hs', rfl⟩
    obtain ⟨s, hs, halike⟩ := exists_alike h.symm hlinked' hlinked hs'
    exact ⟨s.id, ⟨s, hs, rfl⟩,
      (Matches.eq_of_alike hlinked' hf ⟨s, hs, rfl⟩ ⟨s', hs', rfl⟩ halike.symm).symm⟩

/-- The first state is matched with the first. -/
theorem Matches.zero : f 0 = 0 := by
  obtain ⟨number', hleads', halike⟩ :=
    exists_leads_sameRules h hlinked hlinked' (Leads.refl states 0)
  obtain rfl : 0 = number' := hleads'
  exact (Matches.eq_of_alike hlinked' hf hlinked.zero_mem_ids hlinked'.zero_mem_ids halike).symm

/-- Transitions lead to states that are matched. -/
theorem Matches.get?_transitions {s s' : State} (hs : s ∈ states) (hs' : s' ∈ states')
    (hid : s'.id = f s.id) (symbol : Symbol) :
    s'.transitions.get? symbol = (s.transitions.get? symbol).map f := by
  have halike := (hf s.id ⟨s, hs, rfl⟩).2
  rw [← hid] at halike
  cases hget : s.transitions.get? symbol with
  | some next =>
      obtain ⟨next', hget', hnext⟩ := exists_get?_of_alike h hlinked hlinked' hs hs' halike hget
      obtain ⟨t, ht, hid, -⟩ := hlinked.exists_target hs hget
      obtain ⟨t', ht', hid', -⟩ := hlinked'.exists_target hs' hget'
      rw [hget', Matches.eq_of_alike hlinked' hf ⟨t, ht, hid⟩ ⟨t', ht', hid'⟩ hnext]
      rfl
  | none =>
      cases hget' : s'.transitions.get? symbol with
      | none => rfl
      | some next' =>
          obtain ⟨next, hnext, -⟩ :=
            exists_get?_of_alike h.symm hlinked' hlinked hs' hs halike.symm hget'
          rw [hget] at hnext
          cases hnext

/-- A change of numbers that goes to states with the same items makes one automaton of the other. -/
theorem Matches.renumbering : Renumbering states states' f where
  bijOn := Matches.bijOn h hlinked hlinked' hf
  zero := Matches.zero h hlinked hlinked' hf
  items := by
    intro s hs s' hs' hid
    have halike := (hf s.id ⟨s, hs, rfl⟩).2
    rw [← hid] at halike
    ext item
    rw [← hlinked.holds_id_iff hs, ← hlinked'.holds_id_iff hs', halike]
  transitions _ hs _ hs' := Matches.get?_transitions h hlinked hlinked' hf hs hs'

end SameRules

/-! ## Tables -/

/-- The reasons of a state meet in the one grammar iff they do in the other. -/
theorem meets_iff_of_sameRules (h : SameRules g g') {algorithm : Algorithm} {items : Finset Item}
    {leadsOn : Prop} {symbol : Symbol} :
    Meets g algorithm items leadsOn symbol ↔ Meets g' algorithm items leadsOn symbol := by
  simp only [Meets, Table.acts_iff_of_sameRules h]

/-- Conflicts are in the matching cells. -/
theorem conflictAt_iff_of_renumbering (h : SameRules g g') {algorithm : Algorithm}
    (halgorithm : algorithm ∈ Algorithm.shiftReduce) {collection collection' : Collection}
    (hbuild : build g (FirstFollow.compute g) algorithm = .ok collection)
    (hbuild' : build g' (FirstFollow.compute g') algorithm = .ok collection') {f : Int → Int}
    (hf : Renumbering collection.states collection'.states f) {s : State}
    (hs : s ∈ collection.states) {symbol : Symbol} :
    collection.table.ConflictAt (.state s.id) symbol ↔
      collection'.table.ConflictAt (.state (f s.id)) symbol := by
  obtain ⟨s', hs', hid⟩ := hf.bijOn.mapsTo ⟨s, hs, rfl⟩
  have hleadsOn : (∃ next, s'.transitions.get? symbol = some next) ↔
      ∃ next, s.transitions.get? symbol = some next := by
    rw [← Option.isSome_iff_exists, ← Option.isSome_iff_exists,
      hf.transitions s hs s' hs' hid symbol, Option.isSome_map]
  rw [← hid, conflictAt_iff_meets halgorithm hbuild hs,
    conflictAt_iff_meets halgorithm hbuild' hs', hf.items s hs s' hs' hid, hleadsOn,
    meets_iff_of_sameRules h]

/-- Of two grammars the start symbols are the same, and the productions are the same up to their
order and their numbers. Then they have the same FIRST and FOLLOW sets, and for every shift-reduce
algorithm the two automata differ in the numbers of their states only: a change of these numbers
that keeps 0 goes from the one to the other, with the same items in the states and the same
transitions between them. A cell of the one table is a conflict iff the cell of the other table for
the state with the new number and the same symbol is one. -/
theorem exists_renumbering_of_perm (hstart : g.startSymbol = g'.startSymbol)
    (hperm : (g.productions.map Production.toRule).Perm (g'.productions.map Production.toRule)) :
    (∀ s, (FirstFollow.compute g).first.get? s = (FirstFollow.compute g').first.get? s) ∧
    (∀ s, (FirstFollow.compute g).follow.get? s = (FirstFollow.compute g').follow.get? s) ∧
    ∀ algorithm ∈ Algorithm.shiftReduce, ∃ collection collection',
      build g (FirstFollow.compute g) algorithm = .ok collection ∧
      build g' (FirstFollow.compute g') algorithm = .ok collection' ∧
      ∃ f, Renumbering collection.states collection'.states f ∧
        ∀ s ∈ collection.states, ∀ symbol,
          collection.table.ConflictAt (.state s.id) symbol ↔
            collection'.table.ConflictAt (.state (f s.id)) symbol := by
  have h := SameRules.of_perm hstart hperm
  refine ⟨h.get?_first_eq, h.get?_follow_eq, fun algorithm halgorithm => ?_⟩
  obtain ⟨collection, hbuild, hbuilt⟩ := exists_built g halgorithm
  obtain ⟨collection', hbuild', hbuilt'⟩ := exists_built g' halgorithm
  obtain ⟨f, hf⟩ := exists_matches h hbuilt.linked hbuilt'.linked
  have hrenumbering := Matches.renumbering h hbuilt.linked hbuilt'.linked hf
  refine ⟨collection, collection', hbuild, hbuild', f, hrenumbering, fun s hs symbol => ?_⟩
  exact conflictAt_iff_of_renumbering h halgorithm hbuild hbuild' hrenumbering hs

/-- Words of two letters, with the rules in two orders. -/
theorem exists_renumbering_of_perm_words :
    ∃ g g' collection collection', Grammar.read "S -> S S | a | b" = .ok g ∧
      Grammar.read "S -> b | S S | a" = .ok g' ∧
      build g (FirstFollow.compute g) .slr1 = .ok collection ∧
      build g' (FirstFollow.compute g') .slr1 = .ok collection' ∧
      ∃ f, Renumbering collection.states collection'.states f ∧
        ∀ s ∈ collection.states, ∀ symbol,
          collection.table.ConflictAt (.state s.id) symbol ↔
            collection'.table.ConflictAt (.state (f s.id)) symbol := by
  let g : Grammar :=
    ⟨[⟨"S", ["S", "S"]⟩, ⟨"S", ["a"]⟩, ⟨"S", ["b"]⟩], List.cons_ne_nil _ _, []⟩
  let g' : Grammar :=
    ⟨[⟨"S", ["b"]⟩, ⟨"S", ["S", "S"]⟩, ⟨"S", ["a"]⟩], List.cons_ne_nil _ _, []⟩
  have hperm : (g.productions.map Production.toRule).Perm (g'.productions.map Production.toRule) :=
    by decide
  have hstart : g.startSymbol = g'.startSymbol := rfl
  obtain ⟨collection, collection', hbuild, hbuild', hf⟩ :=
    (exists_renumbering_of_perm hstart hperm).2.2 .slr1 (by decide)
  exact ⟨g, g', collection, collection', rfl, rfl, hbuild, hbuild', hf⟩

end Collection

end TableParsing
