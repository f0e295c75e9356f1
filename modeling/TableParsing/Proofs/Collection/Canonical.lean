import TableParsing.Proofs.Collection.Built
import TableParsing.Proofs.Collection.Paths

/-!
# Canonical collections

What makes a list of states the canonical collection of a system of items, in the order in which a
breadth-first search finds them (`Canonical`). The states of every collection that is built are
canonical (`canonical_build`).

Most of it is `Linked` at the end of the construction. The order of discovery is kept by every step
of the construction: at any time the targets of the transitions, read state by state, mention the
states in the order of their numbers (`Underway.distinct_targets`). A step puts one transition
behind all others, because the states behind the one that is processed have none (`targets_link`);
the transition leads to a state that has been mentioned or to a new one with the next number.
-/

namespace TableParsing.Collection

open ItemSystem NumberedItem

variable {system : ItemSystem} {place : Nat} {done : List Symbol} {states : List State}

/-! ## The order of discovery -/

/-- Where the transitions lead, state by state in the order in which they were found. -/
def targets (states : List State) : List Int := states.flatMap fun s => s.transitions.values

/-- A new state has no transitions. -/
theorem targets_append_newState (states : List State) (items : List NumberedItem) :
    targets (states ++ [newState states items]) = targets states := by
  unfold targets
  rw [List.flatMap_append]
  simp [newState, OrderedMap.values, OrderedMap.empty]

/-- A further transition comes last, if the states behind its source have none. -/
theorem targets_link {symbol : Symbol} {target : Nat} :
    (states : List State) → {source : Nat} → {s : State} → states[source]? = some s →
      symbol ∉ s.transitions.keys →
      (∀ (i : Nat) (t : State), source < i → states[i]? = some t → t.transitions.values = []) →
        targets (link states source symbol target) = targets states ++ [(target : Int)]
  | [], _, _, hs, _, _ => by cases hs
  | s :: states, 0, _, rfl, hnew, hbehind => by
      have hrest : targets states = [] := by
        apply List.flatMap_eq_nil_iff.mpr
        intro t ht
        obtain ⟨i, hi⟩ := List.getElem?_of_mem ht
        exact hbehind (i + 1) t (Nat.succ_pos i) hi
      show (s.transitions.insert symbol (target : Int)).values ++ targets states =
        s.transitions.values ++ targets states ++ [(target : Int)]
      rw [OrderedMap.values_insert _ hnew, hrest, List.append_nil, List.append_nil]
  | s :: states, source + 1, t, hs, hnew, hbehind => by
      have ih : targets (link states source symbol target) = targets states ++ [(target : Int)] :=
        targets_link states hs hnew fun i t hi ht => hbehind (i + 1) t (Nat.succ_lt_succ hi) ht
      show s.transitions.values ++ targets (link states source symbol target) =
        s.transitions.values ++ targets states ++ [(target : Int)]
      rw [ih, List.append_assoc]

namespace Linked

/-- The states behind the one that is processed have no transitions. -/
theorem values_eq_nil (h : Linked system place done states) {i : Nat} {t : State}
    (hi : place < i) (ht : states[i]? = some t) : t.transitions.values = [] := by
  have hkeys := h.keys i t ht
  rw [linkedSymbols, if_neg (by omega), if_neg (by omega)] at hkeys
  have hentries : t.transitions.entries = [] := List.map_eq_nil_iff.mp hkeys
  rw [OrderedMap.values, hentries, List.map_nil]

/-- The transition on a further symbol comes last. -/
theorem targets_link (h : Linked system place done states) {s : State}
    (hs : states[place]? = some s) {symbol : Symbol} (hnew : symbol ∉ done) (target : Nat) :
    targets (Collection.link states place symbol target) =
      targets states ++ [(target : Int)] := by
  apply Collection.targets_link states hs
  · rw [h.keys place s hs, linkedSymbols, if_neg (Nat.lt_irrefl place), if_pos rfl]
    exact hnew
  · intro i t hi ht
    exact h.values_eq_nil hi ht

end Linked

/-- The first numbers. -/
def numbers (count : Nat) : List Int := (List.range count).map fun i : Nat => (i : Int)

/-- One number more. -/
theorem numbers_succ (count : Nat) : numbers (count + 1) = numbers count ++ [(count : Int)] := by
  simp [numbers, List.range_succ]

/-- A number is one of the first ones. -/
theorem mem_numbers {count i : Nat} : (i : Int) ∈ numbers count ↔ i < count := by
  simp [numbers]

/-- At any time of the construction the transitions mention the states in the order of their
numbers. -/
theorem Underway.distinct_targets (h : Underway system place done states) :
    TableParsing.distinct (0 :: targets states) = numbers states.length := by
  induction h with
  | start => rfl
  | @link place done states s symbol h hs hsymbol hnew ih =>
      have hmem : ∀ i : Nat, (i : Int) ∈ 0 :: targets states ↔ i < states.length := by
        intro i
        rw [← mem_distinct, ih, mem_numbers]
      unfold linkStep
      split
      · next target hfind =>
          obtain ⟨t, ht, -⟩ := exists_of_find? hfind
          have hlt : target < states.length := (List.getElem?_eq_some_iff.mp ht).1
          have hlength : (Collection.link states place symbol target).length = states.length :=
            List.length_modify ..
          rw [hlength, h.linked.targets_link hs hnew, ← List.cons_append,
            distinct_append_singleton, if_pos ((hmem target).mpr hlt), ih]
      · next hfind =>
          let longer := states ++ [newState states (system.goto s.items symbol)]
          have hlinked : Linked system place done longer := h.linked.append hs hsymbol hfind
          have htargets : targets (Collection.link longer place symbol states.length) =
              targets states ++ [(states.length : Int)] := by
            rw [hlinked.targets_link (getElem?_append_newState hs _) hnew, targets_append_newState]
          have hlength : (Collection.link longer place symbol states.length).length =
              states.length + 1 := by
            simp [Collection.link, longer]
          show TableParsing.distinct
              (0 :: targets (Collection.link longer place symbol states.length)) =
            numbers (Collection.link longer place symbol states.length).length
          rw [hlength, htargets, ← List.cons_append, distinct_append_singleton,
            if_neg (by rw [hmem]; omega), ih, numbers_succ]
  | next _ _ _ ih => exact ih

/-! ## Canonical states -/

/-- The canonical states of a system of items, in the order of a breadth-first search. -/
structure Canonical (system : ItemSystem) (lookahead : Option Symbol) (states : List State) :
    Prop where
  /-- The number of a state is its place. -/
  ids : states.map State.id = numbers states.length
  /-- The first state is the closure of the item of the added start symbol. -/
  first : ∃ s, states[0]? = some s ∧ s.items = system.start lookahead
  /-- No two states have the same set of items. -/
  nodup : (states.map fun s => itemSet s.items).Nodup
  /-- A state has transitions exactly on the symbols after the dots of its items. -/
  transition_iff : ∀ s ∈ states, ∀ symbol,
    (∃ next, s.transitions.get? symbol = some next) ↔ ∃ x ∈ s.items, x.next? = some symbol
  /-- A transition leads to the one state that has the items of the goto. -/
  target : ∀ s ∈ states, ∀ symbol next, s.transitions.get? symbol = some next →
    ∃ t ∈ states, t.id = next ∧ itemSet t.items = itemSet (system.goto s.items symbol) ∧
      ∀ t' ∈ states, itemSet t'.items = itemSet (system.goto s.items symbol) → t' = t
  /-- Every state is reached from the first one. -/
  reachable : ∀ s ∈ states, ∃ symbols, Leads states 0 symbols s.id
  /-- The transitions of a state are in the order in which its items first have their symbols after
  the dot. -/
  keys : ∀ s ∈ states, s.transitions.keys = expected s.items
  /-- The states are numbered in the order in which these transitions first lead to them. -/
  discovery : TableParsing.distinct (0 :: targets states) = states.map State.id

namespace Linked

variable (h : Linked system states.length [] states)
include h

/-- The states are numbered in their order. -/
theorem map_id_eq_numbers : states.map State.id = numbers states.length := by
  unfold numbers
  apply List.ext_getElem
  · simp
  · intro i hi hi'
    rw [List.length_map] at hi
    rw [List.getElem_map, List.getElem_map, List.getElem_range]
    exact h.id i _ (List.getElem?_eq_getElem hi)

/-- A state is found by its items. -/
theorem eq_of_itemSet_eq {s t : State} (hs : s ∈ states) (ht : t ∈ states)
    (heq : itemSet s.items = itemSet t.items) : s = t :=
  List.inj_on_of_nodup_map h.nodup_map_itemSet hs ht heq

/-- States that are linked, and mentioned in the order of their numbers, are canonical. -/
theorem canonical
    (hdiscovery : TableParsing.distinct (0 :: targets states) = numbers states.length) :
    Canonical system system.startLookahead states where
  ids := h.map_id_eq_numbers
  first := h.first
  nodup := h.nodup_map_itemSet
  transition_iff := by
    intro s hs symbol
    rw [← Option.isSome_iff_exists, h.isSome_get?_iff hs, expected, mem_distinct,
      List.mem_filterMap]
  target := by
    intro s hs symbol next hget
    obtain ⟨t, ht, hid, hitems⟩ := h.exists_target hs hget
    have heq := itemSet_eq_iff.mpr (sameItems_iff.mpr hitems)
    refine ⟨t, ht, hid, heq, fun t' ht' heq' => ?_⟩
    exact h.eq_of_itemSet_eq ht' ht (heq'.trans heq.symm)
  reachable := fun _ hs => h.exists_leads hs
  keys := by
    intro s hs
    obtain ⟨i, hi⟩ := List.getElem?_of_mem hs
    rw [h.keys i s hi, linkedSymbols, if_pos (List.getElem?_eq_some_iff.mp hi).1]
  discovery := by rw [hdiscovery, h.map_id_eq_numbers]

end Linked

/-- All of a collection but its table is given by the construction. -/
theorem eq_of_build {g : Grammar} {sets : FirstFollow} {algorithm : Algorithm}
    {collection : Collection} (hsystem : ofAlgorithm g sets algorithm = .ok system)
    (hbuild : build g sets algorithm = .ok collection) :
    collection =
      { algorithm := algorithm
        augmented := g.augmentedProduction
        states := (construct system).states
        table := collection.table
        history := .ofSteps (construct system).steps } := by
  rw [build, hsystem] at hbuild
  simp only at hbuild
  cases htable : Table.shiftReduce g sets algorithm g.augmentedProduction
      (construct system).states with
  | error failure =>
      rw [htable] at hbuild
      cases hbuild
  | ok table =>
      rw [htable] at hbuild
      cases hbuild
      rfl

/-- The states of a collection are those of the construction. -/
theorem states_build {g : Grammar} {sets : FirstFollow} {algorithm : Algorithm}
    {collection : Collection} (hsystem : ofAlgorithm g sets algorithm = .ok system)
    (hbuild : build g sets algorithm = .ok collection) :
    collection.states = (construct system).states :=
  congrArg Collection.states (eq_of_build hsystem hbuild)

/-- For every grammar and every shift-reduce algorithm the collection can be built, and its states
are canonical: with the end marker for the lookahead of the first item where the algorithm has
lookaheads, and with none for the others. -/
theorem canonical_build (g : Grammar) {algorithm : Algorithm}
    (halgorithm : algorithm ∈ Algorithm.shiftReduce) :
    ∃ system collection, ofAlgorithm g (FirstFollow.compute g) algorithm = .ok system ∧
      build g (FirstFollow.compute g) algorithm = .ok collection ∧
      Canonical system (if algorithm = .lr1 then some endMarker else none) collection.states := by
  obtain ⟨collection, hbuild, hbuilt⟩ := exists_built g halgorithm
  have hsystem := ofAlgorithm_eq (g := g) halgorithm
  refine ⟨_, collection, hsystem, hbuild, ?_⟩
  obtain ⟨last, hunderway, -⟩ := underway_construct (computed g (algorithm = .lr1))
  have hdiscovery := hunderway.distinct_targets
  rw [← states_build hsystem hbuild] at hdiscovery
  have hcanonical := hbuilt.linked.canonical hdiscovery
  simp only [startLookahead, hasLookahead_computed, decide_eq_true_eq] at hcanonical
  exact hcanonical

/-- In the automaton of nested brackets the transitions lead to the states 1, 2, 2, 3 and 4 in turn,
so these are found in the order of their numbers. -/
theorem canonical_build_nested :
    ∃ system collection,
      ofAlgorithm .nested (FirstFollow.compute .nested) .slr1 = .ok system ∧
      build .nested (FirstFollow.compute .nested) .slr1 = .ok collection ∧
      Canonical system none collection.states ∧ targets collection.states = [1, 2, 2, 3, 4] := by
  obtain ⟨system, collection, hsystem, hbuild, hcanonical⟩ := canonical_build .nested
    (show Algorithm.slr1 ∈ Algorithm.shiftReduce by decide)
  have htargets : (build .nested (FirstFollow.compute .nested) .slr1).toOption.map (fun c =>
      targets c.states) = some [1, 2, 2, 3, 4] := by decide +kernel
  rw [hbuild] at htargets
  exact ⟨system, collection, hsystem, hbuild, hcanonical, Option.some.inj htargets⟩

end TableParsing.Collection
