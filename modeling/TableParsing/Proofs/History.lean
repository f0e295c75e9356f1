import Mathlib
import TableParsing.History

/-!
# Replayed histories

A history is a replay of a construction if it begins with the data that the construction begins
with, ends with those that it ends with, and every other snapshot differs from the one before it as
its event says (`History.Replay`). A construction that is a sequence of such steps is a `Trail`, and
the history of its steps is a replay (`Trail.replay`).
-/

namespace TableParsing

variable {ε α : Type} {Changes : ε → α → α → Prop}

/-! ## Trails -/

/-- Steps from some data to others, where each changes the data as its event says. -/
inductive Trail (Changes : ε → α → α → Prop) : α → List (ε × α) → α → Prop
  | nil (data : α) : Trail Changes data [] data
  | cons {before after final : α} {event : ε} {steps : List (ε × α)}
      (hstep : Changes event before after) (rest : Trail Changes after steps final) :
      Trail Changes before ((event, after) :: steps) final

namespace Trail

variable {start middle final : α} {steps later : List (ε × α)}

/-- A trail of one step. -/
theorem single {event : ε} (h : Changes event start final) :
    Trail Changes start [(event, final)] final := .cons h (.nil final)

/-- Trails follow one another. -/
theorem append (h : Trail Changes start steps middle) (h' : Trail Changes middle later final) :
    Trail Changes start (steps ++ later) final := by
  induction h with
  | nil => exact h'
  | cons hstep _ ih => exact .cons hstep (ih h')

/-- What every step keeps holds of all data of a trail. -/
theorem forall_mem {P : α → Prop} (hkept : ∀ event before after, Changes event before after →
    P before → P after) (h : Trail Changes start steps final) (hstart : P start) :
    ∀ step ∈ steps, P step.2 := by
  induction h with
  | nil => exact fun _ hmem => absurd hmem List.not_mem_nil
  | cons hstep _ ih =>
      have hafter := hkept _ _ _ hstep hstart
      exact List.forall_mem_cons.mpr ⟨hafter, ih hafter⟩

/-- Data are related to the last ones of a trail, if those before a step are to those after it. -/
theorem rel_final {R : α → α → Prop} (hrefl : ∀ data, R data data)
    (htrans : ∀ {a b c}, R a b → R b c → R a c)
    (hchanges : ∀ event before after, Changes event before after → R before after)
    (h : Trail Changes start steps final) :
    R start final ∧ ∀ step ∈ steps, R step.2 final := by
  induction h with
  | nil data => exact ⟨hrefl data, fun _ hmem => absurd hmem List.not_mem_nil⟩
  | cons hstep _ ih =>
      exact ⟨htrans (hchanges _ _ _ hstep) ih.1, List.forall_mem_cons.mpr ih⟩

/-- In a trail each step changes the data of the step before it. -/
theorem isChain (h : Trail Changes start steps final) (event : ε) :
    ((event, start) :: steps).IsChain fun before after => Changes after.1 before.2 after.2 := by
  induction h generalizing event with
  | nil => exact List.isChain_singleton _
  | cons hstep _ ih => exact List.isChain_cons_cons.mpr ⟨hstep, ih _⟩

/-- The last data of a trail are those it leads to. -/
theorem getLast?_eq (h : Trail Changes start steps final) (event : ε) :
    ((event, start) :: steps).getLast?.map Prod.snd = some final := by
  induction h generalizing event with
  | nil => rfl
  | cons _ _ ih =>
      rw [List.getLast?_cons_cons]
      exact ih _

end Trail

/-! ## Histories -/

namespace History

/-- The history shows a construction step by step. -/
structure Replay (Changes : ε → α → α → Prop) (first : ε) (start final : α)
    (history : History ε α) : Prop where
  /-- The snapshots are numbered by their places. -/
  index : ∀ (i : Nat) snapshot, history[i]? = some snapshot → snapshot.index = i
  /-- The first snapshot has the data at the start. -/
  first : history[0]? = some ⟨0, first, start⟩
  /-- Every other one differs from the one before it as its event says. -/
  changes : history.IsChain fun before after => Changes after.event before.data after.data
  /-- The last snapshot has the data at the end. -/
  last : history.getLast?.map Snapshot.data = some final

/-- The snapshots of some steps. -/
theorem getElem?_ofSteps (steps : List (ε × α)) (i : Nat) :
    (ofSteps steps)[i]? = steps[i]?.map fun step => ⟨i, step.1, step.2⟩ :=
  List.getElem?_mapIdx

/-- There is one snapshot for each step. -/
theorem length_ofSteps (steps : List (ε × α)) : (ofSteps steps).length = steps.length :=
  List.length_mapIdx

/-- The events of the snapshots are those of the steps. -/
theorem map_event_ofSteps (steps : List (ε × α)) :
    (ofSteps steps).map Snapshot.event = steps.map Prod.fst := by
  apply List.ext_getElem?
  intro i
  rw [List.getElem?_map, getElem?_ofSteps, List.getElem?_map, Option.map_map]
  rfl

/-- Each snapshot is related to the one before it if the steps are. -/
theorem isChain_ofSteps {R : α → ε → α → Prop} {steps : List (ε × α)}
    (h : steps.IsChain fun before after => R before.2 after.1 after.2) :
    (ofSteps steps).IsChain fun before after => R before.data after.event after.data := by
  rw [List.isChain_iff_getElem] at h ⊢
  intro i hi
  rw [length_ofSteps] at hi
  simpa only [ofSteps, List.getElem_mapIdx] using h i hi

end History

/-- The history of a trail is a replay. -/
theorem Trail.replay {start final : α} {steps : List (ε × α)} (h : Trail Changes start steps final)
    (first : ε) : History.Replay Changes first start final (.ofSteps ((first, start) :: steps)) where
  index := by
    intro i snapshot hsnapshot
    rw [History.getElem?_ofSteps, Option.map_eq_some_iff] at hsnapshot
    obtain ⟨step, -, rfl⟩ := hsnapshot
    rfl
  first := by
    rw [History.getElem?_ofSteps]
    rfl
  changes := History.isChain_ofSteps (R := fun before event after => Changes event before after)
    (h.isChain first)
  last := by
    rw [← h.getLast?_eq first, List.getLast?_eq_getElem?, History.length_ofSteps,
      History.getElem?_ofSteps, List.getLast?_eq_getElem?, Option.map_map]
    rfl

end TableParsing
