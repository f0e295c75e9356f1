import TableParsing.Proofs.Item.Closure

/-!
# The work list of a closure ends

The work list is run without a bound on its steps (`WorksThrough`). It has only one run
(`WorksThrough.unique`). If all dots have places the run comes to its end by itself, with what the
closure is sorted from, so the bound of `closure` is never met (`exists_worksThrough_closure`). A
step takes one item off the list and puts it to those that have been worked through, so there are as
many steps as the closure has items.

If a dot has no place, the work list stops there, and this is at one of the seeds, because called
items have their dots before their bodies (`exists_worksThrough_error`).
-/

namespace TableParsing

namespace ItemSystem

open NumberedItem (toItem itemSet)

variable {system : ItemSystem} {items : List NumberedItem}

/-! ## Runs of the work list -/

/-- The work list without a bound: from the items that have been worked through and those that have
not, the number of steps and the outcome. -/
inductive WorksThrough (system : ItemSystem) :
    List NumberedItem → List NumberedItem → Nat → Except Failure (List NumberedItem) → Prop
  /-- No item is left. -/
  | finished (done : List NumberedItem) : WorksThrough system done [] 0 (.ok done)
  /-- The dot of the next item has no place. -/
  | refused {done todo : List NumberedItem} {item : NumberedItem}
      (hplaced : item.isPlaced = false) :
      WorksThrough system done (item :: todo) 1 (.error .dotOutsideBody)
  /-- The next item is worked through, and what it calls for is put behind the others. -/
  | next {done todo : List NumberedItem} {item : NumberedItem} {steps : Nat}
      {outcome : Except Failure (List NumberedItem)} (hplaced : item.isPlaced = true)
      (later : WorksThrough system (done ++ [item])
        (todo ++ newItems (done ++ item :: todo) (system.calledFor item.toItem)) steps outcome) :
      WorksThrough system done (item :: todo) (steps + 1) outcome

/-- The work list has only one run. -/
theorem WorksThrough.unique {done todo : List NumberedItem} {steps steps' : Nat}
    {outcome outcome' : Except Failure (List NumberedItem)}
    (h : WorksThrough system done todo steps outcome)
    (h' : WorksThrough system done todo steps' outcome') : steps' = steps ∧ outcome' = outcome := by
  induction h generalizing steps' outcome' with
  | finished =>
      cases h' with
      | finished => exact ⟨rfl, rfl⟩
  | refused hoff =>
      cases h' with
      | refused => exact ⟨rfl, rfl⟩
      | next hplaced => exact absurd (hoff.symm.trans hplaced) Bool.false_ne_true
  | next hplaced _ ih =>
      cases h' with
      | refused hoff => exact absurd (hoff.symm.trans hplaced) Bool.false_ne_true
      | next _ later =>
          obtain ⟨rfl, rfl⟩ := ih later
          exact ⟨rfl, rfl⟩

/-- Called items have their dots before their bodies. -/
theorem isPlaced_of_calledFor {item : Item} {called : NumberedItem}
    (h : called ∈ system.calledFor item) : called.isPlaced = true := by
  obtain ⟨p, -, -, lookahead, -, rfl⟩ := mem_calledFor.mp h
  exact decide_eq_true (Int.neg_nonpos_of_nonneg (Int.natCast_nonneg _))

/-- If the dots have places and the bound permits a step for each item of the result, the work list
comes to its end. It takes a step for each item that it works through. -/
theorem worksThrough_expand :
    (bound : Nat) → (done todo : List NumberedItem) → (∀ x ∈ todo, x.isPlaced = true) →
      (system.expand bound done todo).length ≤ done.length + bound →
        ∃ steps, WorksThrough system done todo steps (.ok (system.expand bound done todo)) ∧
          done.length + steps = (system.expand bound done todo).length
  | 0, done, todo, _, hbound => by
      rw [expand, List.length_append] at hbound
      obtain rfl : todo = [] := List.length_eq_zero_iff.mp (by omega)
      rw [expand, List.append_nil]
      exact ⟨0, .finished done, rfl⟩
  | _ + 1, done, [], _, _ => ⟨0, .finished done, rfl⟩
  | bound + 1, done, item :: todo, hplaced, hbound => by
      obtain ⟨hitem, htodo⟩ := List.forall_mem_cons.mp hplaced
      rw [expand] at hbound ⊢
      have hlater : ∀ x ∈ todo ++ newItems (done ++ item :: todo) (system.calledFor item.toItem),
          x.isPlaced = true := by
        refine List.forall_mem_append.mpr ⟨htodo, fun x hx => ?_⟩
        exact isPlaced_of_calledFor (mem_of_mem_newItems hx)
      obtain ⟨steps, hworks, hsteps⟩ := worksThrough_expand bound (done ++ [item]) _ hlater
        (by rw [List.length_append, List.length_singleton]; omega)
      refine ⟨steps + 1, .next hitem hworks, ?_⟩
      rw [List.length_append, List.length_singleton] at hsteps
      omega

/-- If a dot has no place, the work list stops at the first such item. -/
theorem exists_worksThrough_refused :
    (todo : List NumberedItem) → (∃ x ∈ todo, x.isPlaced = false) →
      ∀ done later : List NumberedItem, ∃ steps ≤ todo.length,
        WorksThrough system done (todo ++ later) steps (.error .dotOutsideBody)
  | [], ⟨_, hx, _⟩, _, _ => absurd hx List.not_mem_nil
  | item :: todo, hoff, done, later => by
      cases hplaced : item.isPlaced with
      | false => exact ⟨1, by simp, .refused hplaced⟩
      | true =>
          have htodo : ∃ x ∈ todo, x.isPlaced = false := by
            obtain ⟨x, hx, hxoff⟩ := hoff
            rcases List.mem_cons.mp hx with rfl | hx
            · exact absurd (hplaced.symm.trans hxoff) (by decide)
            · exact ⟨x, hx, hxoff⟩
          -- What the item calls for comes behind the one without a place.
          obtain ⟨steps, hsteps, hworks⟩ := exists_worksThrough_refused todo htodo (done ++ [item])
            (later ++ newItems (done ++ item :: (todo ++ later)) (system.calledFor item.toItem))
          rw [← List.append_assoc] at hworks
          exact ⟨steps + 1, Nat.succ_le_succ hsteps, .next hplaced hworks⟩

/-! ## The number of steps -/

/-- There are as many seeds to be worked through as different items are given. -/
theorem length_distinctBy_toItem (items : List NumberedItem) :
    (distinctBy toItem items).length = (itemSet items).card := by
  have hset : itemSet items = ((distinctBy toItem items).map toItem).toFinset := by
    ext item
    rw [itemSet, List.mem_toFinset, List.mem_toFinset, mem_map_distinctBy]
  rw [hset, List.toFinset_card_of_nodup (nodup_map_distinctBy _ _), List.length_map]

/-- The closure has no more items than a list that has all of them, because it has none twice. -/
theorem length_closure_le_of_forall_mem {among : List Item}
    (h : ∀ x ∈ system.closure items, x.toItem ∈ among) :
    (system.closure items).length ≤ among.length := by
  have hsub : (system.closure items).map toItem ⊆ among := List.forall_mem_map.mpr h
  rw [← List.length_map toItem]
  exact (List.subperm_of_subset (nodup_closure system items) hsub).length_le

/-- The bound of the closure permits a step for each of its items. -/
theorem length_closure_le_closureBound (system : ItemSystem) (items : List NumberedItem) :
    (system.closure items).length ≤ system.closureBound items := by
  have hcandidates : ∀ x ∈ system.closure items, x.toItem ∈ system.candidates items :=
    forall_mem_closure
      (fun x hx => List.mem_append_left _
        ((mem_map_distinctBy toItem _ items).mpr (List.mem_map_of_mem hx)))
      fun x hx y hy => mem_candidates_of_calledFor hx hy
  exact (length_closure_le_of_forall_mem hcandidates).trans (length_candidates_le system items)

/-! ## The whole run -/

/-- If the dots have places, the work list of a closure comes to its end, and it takes a step for
each item of the closure. -/
theorem exists_worksThrough_closure (hplaced : ∀ x ∈ items, x.isPlaced = true) :
    ∃ final, WorksThrough system [] (distinctBy toItem items) (system.closure items).length
        (.ok final) ∧ system.close items = .ok (NumberedItem.sort final) := by
  have hlength := (closure_perm system items).length_eq
  have hbound := length_closure_le_closureBound system items
  obtain ⟨steps, hworks, hsteps⟩ := worksThrough_expand (system.closureBound items) []
    (distinctBy toItem items) (fun x hx => hplaced x ((distinctBy_sublist _ _).mem hx))
    (by rwa [List.length_nil, Nat.zero_add, ← hlength])
  rw [List.length_nil, Nat.zero_add, ← hlength] at hsteps
  subst hsteps
  exact ⟨_, hworks, if_pos (List.all_eq_true.mpr hplaced)⟩

/-- If a dot has no place, the work list of a closure stops there, at one of the seeds. -/
theorem exists_worksThrough_error (h : ∃ x ∈ items, x.isPlaced = false) :
    ∃ steps ≤ (itemSet items).card,
      WorksThrough system [] (distinctBy toItem items) steps (.error .dotOutsideBody) := by
  obtain ⟨x, hx, hoff⟩ := h
  have hmem := (mem_map_distinctBy toItem x.toItem items).mpr (List.mem_map_of_mem hx)
  obtain ⟨y, hy, hyx⟩ := List.mem_map.mp hmem
  obtain ⟨steps, hsteps, hworks⟩ :=
    exists_worksThrough_refused _ ⟨y, hy, (congrArg Item.isPlaced hyx).trans hoff⟩ [] []
  rw [List.append_nil] at hworks
  rw [length_distinctBy_toItem] at hsteps
  exact ⟨steps, hsteps, hworks⟩

end ItemSystem

end TableParsing
