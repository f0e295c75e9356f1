import TableParsing.Symbol

/-!
# Histories

A builder keeps what it held after each of its steps, so that the construction can be shown step
by step. A history is a list of snapshots, numbered by their places; a snapshot holds the event
after which it was taken and the data at that time. A `Caption` is what is shown of an event.
-/

namespace TableParsing

/-- How an event is presented: a description and what it points at. -/
structure Caption where
  /-- What happened. -/
  description : String
  /-- The symbol in question. -/
  symbol : Option Symbol
  /-- The state in question. -/
  state : Option Int
  /-- The state that the step leads to. -/
  target : Option Int
deriving DecidableEq, Repr

/-- The data of a builder after one event. -/
structure Snapshot (ε α : Type) where
  /-- The place in the history. -/
  index : Nat
  /-- What happened. -/
  event : ε
  /-- The data after the event. -/
  data : α

/-- A numbered sequence of snapshots. -/
abbrev History (ε α : Type) := List (Snapshot ε α)

namespace History

variable {ε α : Type}

/-- Adds a snapshot at the end. -/
def record (h : History ε α) (event : ε) (data : α) : History ε α :=
  h ++ [⟨h.length, event, data⟩]

/-- The history of a list of events and the data after each. -/
def ofSteps (steps : List (ε × α)) : History ε α :=
  steps.mapIdx fun i step => ⟨i, step.1, step.2⟩

/-- Recording a further step appends its snapshot. -/
theorem ofSteps_append_singleton (steps : List (ε × α)) (event : ε) (data : α) :
    ofSteps (steps ++ [(event, data)]) = record (ofSteps steps) event data := by
  simp [ofSteps, record, List.mapIdx_append]

/-- A snapshot holds one of the steps. -/
theorem mem_steps_of_mem {steps : List (ε × α)} {snapshot : Snapshot ε α}
    (h : snapshot ∈ ofSteps steps) : (snapshot.event, snapshot.data) ∈ steps := by
  obtain ⟨i, hi, rfl⟩ := List.mem_mapIdx.mp h
  exact List.getElem_mem hi

end History

end TableParsing
