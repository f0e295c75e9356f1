import TableParsing.Proofs.Machine.Run

/-!
# Records and what has been read before them

A record of a run shows the move that was made and the configuration after it. What the machine has
read by then is told by the moves alone, those of the records so far (`readBy`). A property of a
record and of what has been read holds at all records if it holds at the start, if every step
hands it on, and if the record of the limit takes it over from the one before (`forall_records`).

Unlike an invariant of configurations, such a property may say less of a record that ends the run
than of the others, since nothing is handed on from there.
-/

namespace TableParsing

/-- The symbol that a move takes from the input. -/
def Move.read? : Move → Option Symbol
  | .matched s => some s
  | .shifted s _ => some s
  | _ => none

/-- The symbols that some moves have taken from the input. -/
def readBy (moves : List Move) : List Symbol := moves.filterMap Move.read?

/-- Moves that follow one another read one after the other. -/
theorem readBy_append (moves others : List Move) :
    readBy (moves ++ others) = readBy moves ++ readBy others := List.filterMap_append

namespace Machine

variable {σ : Type} {step : σ → Moment σ} {P : List Symbol → Moment σ → Prop}

section records

variable
  (hstep : ∀ read moment, P read moment → moment.move.outcome? = none →
    P (read ++ readBy [(step moment.config).move]) (step moment.config))
  (hlimit : ∀ read moment, P read moment → moment.move.outcome? = none →
    P read ⟨.stepLimit, moment.config⟩)
include hstep hlimit

/-- A property of records that is handed on from a record that does not end the run holds at all
records after it. -/
theorem forall_records_run :
    (limit : Nat) → (read : List Symbol) → (start : Moment σ) → P read start →
      start.move.outcome? = none → ∀ before moment after,
        run step limit start.config = before ++ moment :: after →
          P (read ++ readBy ((before ++ [moment]).map Moment.move)) moment
  | 0, read, start, hP, ho, before, moment, after, hsplit => by
      rw [run, eq_comm, List.append_eq_singleton_iff] at hsplit
      rcases hsplit with ⟨rfl, hsplit⟩ | ⟨-, hsplit⟩
      · obtain ⟨rfl, -⟩ := List.cons.inj hsplit
        rw [List.nil_append, List.map_singleton]
        exact (List.append_nil read).symm ▸ hlimit read start hP ho
      · cases hsplit
  | limit + 1, read, start, hP, ho, before, moment, after, hsplit => by
      have hnext := hstep read start hP ho
      cases before with
      | nil =>
          obtain ⟨rest, hrun⟩ := exists_run_eq_cons step limit start.config
          rw [hrun] at hsplit
          obtain ⟨rfl, -⟩ := List.cons.inj hsplit
          exact hnext
      | cons first before =>
          cases ho' : (step start.config).move.outcome? with
          | some o =>
              rw [run_succ_of_outcome step limit _ ho'] at hsplit
              exact absurd (List.cons.inj hsplit).2 (by simp)
          | none =>
              rw [run_succ_of_none step limit _ ho'] at hsplit
              obtain ⟨rfl, hrest⟩ := List.cons.inj hsplit
              have ih := forall_records_run limit _ (step start.config) hnext ho' _ _ _ hrest
              rw [List.cons_append, List.map_cons, ← List.singleton_append, readBy_append,
                ← List.append_assoc]
              exact ih

/-- A property that holds at the start and is handed on holds at all records of a run. -/
theorem forall_records (limit : Nat) {c : σ} (hstart : P [] ⟨.start, c⟩) :
    ∀ before moment after, trace step limit c = before ++ moment :: after →
      P (readBy ((before ++ [moment]).map Moment.move)) moment := by
  intro before moment after hsplit
  cases before with
  | nil =>
      obtain ⟨rfl, -⟩ := List.cons.inj hsplit
      exact hstart
  | cons first before =>
      obtain ⟨rfl, hrest⟩ := List.cons.inj hsplit
      exact forall_records_run hstep hlimit limit [] ⟨.start, c⟩ hstart rfl _ _ _ hrest

/-- Such a property holds of the last record and of all that has been read. -/
theorem exists_record (limit : Nat) {c : σ} (hstart : P [] ⟨.start, c⟩) :
    ∃ moment, P (readBy ((trace step limit c).map Moment.move)) moment := by
  rcases List.eq_nil_or_concat' (trace step limit c) with hnil | ⟨before, moment, hsplit⟩
  · exact absurd hnil (List.cons_ne_nil _ _)
  · rw [hsplit]
    exact ⟨moment, forall_records hstep hlimit limit hstart before moment [] hsplit⟩

end records

end Machine

end TableParsing
