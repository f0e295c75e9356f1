import TableParsing.Proofs.Collection.Items

/-!
# Processing all states

The states are processed without a bound on their number (`Processes`), one round for each state,
until there are no more. There is only one way to do so (`Processes.unique`).

For the states of a grammar this comes to its end by itself, and what it makes is what the
construction makes, because there are no more states than the bound permits (`processes_construct`).
So the bound can be left out of what is said of the construction.
-/

namespace TableParsing.Collection

open ItemSystem NumberedItem

variable {system : ItemSystem}

/-- The states are processed from one place on until none is left, without a bound: the number of
rounds, and the events and states that come out. -/
inductive Processes (system : ItemSystem) : Nat → List State → Nat → Progress → Prop
  /-- No state is left. -/
  | finished {place : Nat} {states : List State} (hend : states.length ≤ place) :
      Processes system place states 0 ⟨[], states⟩
  /-- The state at the place gets its transitions, and then it is the turn of those behind it. -/
  | next {place : Nat} {states : List State} {s : State} {own later : Progress} {rounds : Nat}
      (hs : states[place]? = some s)
      (hown : own = addTransitions system place s.items (expected s.items) states)
      (hlater : Processes system (place + 1) own.states rounds later) :
      Processes system place states (rounds + 1)
        ⟨(.processing place, states) :: own.steps ++ later.steps, later.states⟩

/-- The states are processed in one way only. -/
theorem Processes.unique {place : Nat} {states : List State} {rounds rounds' : Nat}
    {progress progress' : Progress} (h : Processes system place states rounds progress)
    (h' : Processes system place states rounds' progress') :
    rounds' = rounds ∧ progress' = progress := by
  induction h generalizing rounds' progress' with
  | finished hend =>
      cases h' with
      | finished => exact ⟨rfl, rfl⟩
      | next hs => exact absurd (List.getElem?_eq_some_iff.mp hs).1 (Nat.not_lt.mpr hend)
  | next hs hown _ ih =>
      cases h' with
      | finished hend => exact absurd (List.getElem?_eq_some_iff.mp hs).1 (Nat.not_lt.mpr hend)
      | next hs' hown' hlater =>
          obtain rfl := Option.some.inj (hs.symm.trans hs')
          obtain rfl := hown.trans hown'.symm
          obtain ⟨rfl, rfl⟩ := ih hlater
          exact ⟨rfl, rfl⟩

/-- The step for a symbol removes no state. -/
theorem length_le_linkStep (system : ItemSystem) (source : Nat) (items : List NumberedItem)
    (symbol : Symbol) (states : List State) :
    states.length ≤ (linkStep system source items symbol states).2.length := by
  unfold linkStep
  split <;> simp [link]

/-- Transitions remove no state. -/
theorem length_le_addTransitions (system : ItemSystem) (source : Nat) (items : List NumberedItem) :
    (symbols : List Symbol) → (states : List State) →
      states.length ≤ (addTransitions system source items symbols states).states.length
  | [], _ => Nat.le_refl _
  | symbol :: symbols, states => by
      rw [addTransitions_cons]
      exact (length_le_linkStep system source items symbol states).trans
        (length_le_addTransitions system source items symbols _)

/-- If the bound permits a round for each state of the result, all states are processed. There is
one round for each state from the place on. -/
theorem processes_process :
    (bound place : Nat) → (states : List State) → place ≤ states.length →
      (process system bound place states).states.length ≤ place + bound →
        ∃ rounds, Processes system place states rounds (process system bound place states) ∧
          place + rounds = (process system bound place states).states.length
  | 0, place, states, hplace => by
      rw [process]
      intro hend
      exact ⟨0, .finished hend, Nat.le_antisymm hplace hend⟩
  | bound + 1, place, states, hplace => by
      unfold process
      split
      · next hnone =>
          have hend := List.getElem?_eq_none_iff.mp hnone
          exact fun _ => ⟨0, .finished hend, Nat.le_antisymm hplace hend⟩
      · next s hs =>
          intro hbound
          have hnext : place + 1 ≤
              (addTransitions system place s.items (expected s.items) states).states.length :=
            Nat.le_trans (List.getElem?_eq_some_iff.mp hs).1 (length_le_addTransitions ..)
          obtain ⟨rounds, hlater, hrounds⟩ :=
            processes_process bound (place + 1) _ hnext (Nat.le_trans hbound (by omega))
          have hplaces : place + (rounds + 1) = place + 1 + rounds := by omega
          exact ⟨rounds + 1, .next hs rfl hlater, hplaces.trans hrounds⟩

/-- The states of the construction are processed until none is left. -/
theorem processes_construct (g : Grammar) (hasLookahead : Bool) :
    Processes (computed g hasLookahead) 0 [firstState (computed g hasLookahead)]
      (construct (computed g hasLookahead)).states.length
      (process (computed g hasLookahead) (stateBound g) 0
        [firstState (computed g hasLookahead)]) := by
  have hle := (linked_construct g hasLookahead).length_le
  obtain ⟨rounds, hprocesses, hrounds⟩ := processes_process (stateBound g) 0
    [firstState (computed g hasLookahead)] (Nat.zero_le _) (by rwa [Nat.zero_add])
  rw [Nat.zero_add] at hrounds
  subst hrounds
  exact hprocesses

end TableParsing.Collection
