import TableParsing.Proofs.Collection.Canonical
import TableParsing.Proofs.Collection.Processing
import TableParsing.Proofs.Item.Halting

/-!
# The work lists of a collection end

The closure of items over the symbols of a grammar (`Item.IsOver`) has only the given items and
first items of productions, with a terminal, the end marker or nothing for the lookahead
(`firstItems`), and none of them twice. So its work list ends within as many steps as there are such
items (`exists_worksThrough`).

Together with what the items of the states are, and with the processing of all states
(`processes_construct`), this is `Terminates`: both loops of the construction end, within bounds
that are given by the numbers of productions, terminals and symbols in bodies.
-/

namespace TableParsing

namespace Item

/-- The body of an item has symbols of the grammar and empty markers only, and the lookahead, if
there is one, is a terminal or the end marker. -/
structure IsOver (g : Grammar) (item : Item) : Prop where
  /-- The symbols of the body. -/
  rhs : ∀ s ∈ item.rhs, s = epsilon ∨ g.isNonTerminal s = true ∨ s ∈ g.terminals
  /-- The lookahead. -/
  lookahead : ∀ s ∈ item.lookahead, s ∈ g.terminals ++ [endMarker]

end Item

namespace ItemSystem

open NumberedItem (toItem itemSet)

variable {items : List NumberedItem} {g : Grammar} {hasLookahead : Bool}

/-! ## Closures of items over the symbols of a grammar -/

/-- The first items of the productions of a grammar, with each terminal, the end marker, and no
lookahead. -/
def firstItems (g : Grammar) : List Item :=
  g.productions.flatMap fun p =>
    (none :: (g.terminals ++ [endMarker]).map some).map (Item.dotted p.toRule 0)

/-- There are as many for each production. -/
theorem length_firstItems (g : Grammar) :
    (firstItems g).length = g.productions.length * (g.terminals.length + 2) := by
  simp [firstItems, List.length_flatMap]

/-- An item over the symbols of a grammar calls for such items, and these are first items. -/
theorem called_isOver {item : Item} (h : item.IsOver g) {called : NumberedItem}
    (hcalled : called ∈ (computed g hasLookahead).calledFor item) :
    called.IsOver g ∧ called.toItem ∈ firstItems g := by
  obtain ⟨p, hp, -, lookahead, hl, rfl⟩ := mem_calledFor.mp hcalled
  have hlookahead : ∀ s ∈ lookahead, s ∈ g.terminals ++ [endMarker] := by
    cases hasLookahead with
    | false =>
        rw [lookaheads_of_not rfl, List.mem_singleton] at hl
        subst hl
        exact fun s hs => nomatch hs
    | true =>
        obtain ⟨s, rfl, hs⟩ := (mem_lookaheads rfl).mp hl
        intro t ht
        obtain rfl : s = t := Option.some.inj ht
        rcases hs with ⟨hfirst, hne⟩ | ⟨-, hown⟩
        · have htrailer := (FirstFollow.firstInRange_compute g).mem_firstOfSequence
            (fun t ht => h.rhs t (List.mem_of_mem_drop ht)) hfirst
          exact List.mem_append_left _ (htrailer.resolve_left hne)
        · exact h.lookahead s hown
  refine ⟨⟨fun s hs => Or.inr ?_, hlookahead⟩, ?_⟩
  · exact Grammar.isNonTerminal_or_mem_terminals_of_mem_body (List.mem_cons_of_mem _ hp) hs
  · refine List.mem_flatMap.mpr ⟨p, hp, List.mem_map_of_mem ?_⟩
    cases lookahead with
    | none => exact List.mem_cons_self
    | some s => exact List.mem_cons_of_mem _ (List.mem_map_of_mem (hlookahead s rfl))

/-- The closure of items over the symbols of a grammar has the given items, and first items of
productions. -/
theorem mem_or_mem_firstItems (hitems : ∀ x ∈ items, x.IsOver g) :
    ∀ x ∈ (computed g hasLookahead).closure items,
      x.IsOver g ∧ (x.toItem ∈ items.map toItem ∨ x.toItem ∈ firstItems g) := by
  refine forall_mem_closure (fun x hx => ⟨hitems x hx, Or.inl (List.mem_map_of_mem hx)⟩) ?_
  intro x hx y hy
  obtain ⟨hover, hfirst⟩ := called_isOver hx.1 hy
  exact ⟨hover, Or.inr hfirst⟩

/-- The closure of items over the symbols of a grammar has no more items than there are seeds and
first items of productions. -/
theorem length_closure_le (hitems : ∀ x ∈ items, x.IsOver g) :
    ((computed g hasLookahead).closure items).length ≤
      (itemSet items).card + g.productions.length * (g.terminals.length + 2) := by
  have hmem : ∀ x ∈ (computed g hasLookahead).closure items,
      x.toItem ∈ (distinctBy toItem items).map toItem ++ firstItems g := by
    intro x hx
    rw [List.mem_append, mem_map_distinctBy]
    exact (mem_or_mem_firstItems hitems x hx).2
  have hle := length_closure_le_of_forall_mem hmem
  rwa [List.length_append, List.length_map, length_distinctBy_toItem, length_firstItems] at hle

/-- The work list of items over the symbols of a grammar ends within a bound that is given by the
numbers of different seeds, productions and terminals. Its outcome is what the closure is sorted
from, unless a dot has no place. -/
theorem exists_worksThrough (hasLookahead : Bool) (hitems : ∀ x ∈ items, x.IsOver g) :
    ∃ steps outcome,
      WorksThrough (computed g hasLookahead) [] (distinctBy toItem items) steps outcome ∧
      steps ≤ (itemSet items).card + g.productions.length * (g.terminals.length + 2) ∧
      (computed g hasLookahead).close items = outcome.map NumberedItem.sort ∧
      (outcome.isOk = true ↔ ∀ x ∈ items, x.isPlaced = true) := by
  by_cases hplaced : ∀ x ∈ items, x.isPlaced = true
  · obtain ⟨final, hworks, hclose⟩ := exists_worksThrough_closure hplaced
    exact ⟨_, .ok final, hworks, length_closure_le hitems, hclose, iff_of_true rfl hplaced⟩
  · have hoff : ∃ x ∈ items, x.isPlaced = false := by
      simpa only [not_forall, exists_prop, Bool.not_eq_true] using hplaced
    obtain ⟨steps, hsteps, hworks⟩ := exists_worksThrough_error hoff
    exact ⟨steps, .error .dotOutsideBody, hworks, hsteps.trans (Nat.le_add_right _ _),
      if_neg fun hall => hplaced (List.all_eq_true.mp hall),
      iff_of_false Bool.false_ne_true hplaced⟩

end ItemSystem

namespace Collection

open ItemSystem NumberedItem

variable {system : ItemSystem} {g : Grammar} {algorithm : Algorithm}

/-! ## The bounds -/

/-- The symbols of all bodies, production by production. -/
theorem length_flatMap_body (g : Grammar) :
    (g.rules.flatMap Rule.body).length = (g.productions.map fun p => p.body.length).sum := by
  rw [List.length_flatMap, ← g.map_toRule_productions, List.map_map]
  rfl

/-- The loops of a construction end. -/
structure Terminates (g : Grammar) (algorithm : Algorithm) (system : ItemSystem)
    (collection : Collection) : Prop where
  /-- For all items over the symbols of the grammar the work list of the closure has one run, and
  that ends with at most a step for each different seed and each first item of a production. Its
  outcome is what the closure is sorted from; it is a failure only if a dot has no place. -/
  closure : ∀ items : List NumberedItem, (∀ x ∈ items, x.IsOver g) →
    ∃ steps outcome,
      (∀ n result, WorksThrough system [] (distinctBy toItem items) n result ↔
        n = steps ∧ result = outcome) ∧
      steps ≤ (itemSet items).card + g.productions.length * (g.terminals.length + 2) ∧
      system.close items = outcome.map NumberedItem.sort ∧
      (outcome.isOk = true ↔ ∀ x ∈ items, x.isPlaced = true)
  /-- An item of a state is a production of the grammar, or the added one, with a dot in its body.
  Its lookahead is a terminal or the end marker where the algorithm has lookaheads. -/
  items : ∀ s ∈ collection.states, ∀ x ∈ s.items,
    ∃ p ∈ g.allProductions, ∃ place ≤ p.body.length, ∃ lookahead,
      x = .dotted p place lookahead ∧
      if algorithm = .lr1 then ∃ a ∈ g.terminals ++ [endMarker], lookahead = some a
      else lookahead = none
  /-- There is one way to process the states, and that ends when none is left, after one round for
  each. -/
  states : ∃ progress,
    (∀ rounds result, Processes system 0 [firstState system] rounds result ↔
      rounds = collection.states.length ∧ result = progress) ∧
    progress.states = collection.states
  /-- There are no more states than sets of items. -/
  length_le : collection.states.length ≤
    2 ^ (((g.productions.map fun p => p.body.length).sum + g.productions.length + 2) *
      (g.terminals.length + 1))

/-- Lookaheads that items of an algorithm can have. -/
theorem mem_allLookaheads_iff {lookahead : Option Symbol} :
    lookahead ∈ (computed g (algorithm = .lr1)).allLookaheads ↔
      if algorithm = .lr1 then ∃ a ∈ g.terminals ++ [endMarker], lookahead = some a
      else lookahead = none := by
  by_cases h : algorithm = .lr1
  · simp [allLookaheads, h, eq_comm]
  · simp [allLookaheads, h]

/-- For every grammar and every shift-reduce algorithm the collection can be built, and **the work
lists of closures and of states end**. -/
theorem exists_terminates (g : Grammar) (halgorithm : algorithm ∈ Algorithm.shiftReduce) :
    ∃ system collection, ofAlgorithm g (FirstFollow.compute g) algorithm = .ok system ∧
      build g (FirstFollow.compute g) algorithm = .ok collection ∧
      Terminates g algorithm system collection := by
  obtain ⟨collection, hbuild, hbuilt⟩ := exists_built g halgorithm
  have hsystem := ofAlgorithm_eq (g := g) halgorithm
  have hstates := states_build hsystem hbuild
  refine ⟨_, collection, hsystem, hbuild,
    { closure := ?_
      items := fun s hs x hx => ?_
      states := ?_
      length_le := ?_ }⟩
  · intro items hitems
    obtain ⟨steps, outcome, hworks, hend⟩ := exists_worksThrough _ hitems
    refine ⟨steps, outcome, fun n result => ⟨hworks.unique, ?_⟩, hend⟩
    rintro ⟨rfl, rfl⟩
    exact hworks
  · obtain ⟨p, hp, place, hplace, lookahead, hl, rfl⟩ := hbuilt.linked.isItem hs x hx
    exact ⟨p, hp, place, hplace, lookahead, rfl, mem_allLookaheads_iff.mp hl⟩
  · have hprocesses := processes_construct g (algorithm = .lr1)
    rw [← hstates] at hprocesses
    refine ⟨_, fun rounds result => ⟨hprocesses.unique, ?_⟩, hstates.symm⟩
    rintro ⟨rfl, rfl⟩
    exact hprocesses
  · have hle := hbuilt.linked.length_le
    have hproductions : g.productions.length = g.rules.length := List.length_mapIdx
    rwa [stateBound, length_flatMap_body, ← hproductions] at hle

/-- An item that belongs to no production, given twice with different numbers, is one seed for
nested brackets. Its work list ends within nine steps; the automaton with lookaheads has eight
states, where its bound is two to the power of twenty-one. -/
theorem exists_terminates_nested :
    ∃ system collection steps outcome,
      ofAlgorithm .nested (FirstFollow.compute .nested) .lr1 = .ok system ∧
      build .nested (FirstFollow.compute .nested) .lr1 = .ok collection ∧
      Terminates .nested .lr1 system collection ∧ collection.states.length = 8 ∧
      WorksThrough system [] [⟨⟨"X", ["S", "S"], 0, some "$"⟩, 7⟩] steps outcome ∧ steps ≤ 9 ∧
      outcome.isOk = true := by
  obtain ⟨system, collection, hsystem, hbuild, hterminates⟩ := exists_terminates .nested
    (show Algorithm.lr1 ∈ Algorithm.shiftReduce by decide)
  have hover : (⟨"X", ["S", "S"], 0, some "$"⟩ : Item).IsOver .nested := ⟨by decide, by decide⟩
  obtain ⟨steps, outcome, hworks, hsteps, -, hok⟩ := hterminates.closure
    [⟨⟨"X", ["S", "S"], 0, some "$"⟩, 7⟩, ⟨⟨"X", ["S", "S"], 0, some "$"⟩, 8⟩]
    (by simp [hover])
  have hlength : (build .nested (FirstFollow.compute .nested) .lr1).toOption.map (fun c =>
      c.states.length) = some 8 := by decide +kernel
  rw [hbuild] at hlength
  exact ⟨system, collection, steps, outcome, hsystem, hbuild, hterminates,
    Option.some.inj hlength, (hworks _ _).mpr ⟨rfl, rfl⟩, hsteps, hok.mpr (by decide)⟩

end Collection

end TableParsing
