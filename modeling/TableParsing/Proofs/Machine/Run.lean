import Mathlib
import TableParsing.Simulation

/-!
# Runs of a machine

What holds of a run follows from what holds of a step. A property that every step keeps holds at
all moments of a run (`forall_mem_trace`). A run is a number of steps that do not end it (`Steps`)
and, unless it is cut short, one more step that has the outcome of the run (`steps_or_end`,
`exists_last_step`). In the other direction, such steps and one that ends the run are the whole run
of any limit that permits them (`Steps.run_of_outcome`, `trace_of_steps`).
-/

namespace TableParsing

/-- The limit permits as many steps as the options do. -/
theorem RunOptions.le_limit {options : RunOptions} {n : Nat} (h : n ≤ options.maxSteps) :
    n ≤ options.limit := by
  unfold limit
  omega

namespace Machine

variable {σ : Type} {step : σ → Moment σ}

/-- The first moment of a run is that of the first step, whether or not the run goes on. -/
theorem exists_run_eq_cons (step : σ → Moment σ) (limit : Nat) (c : σ) :
    ∃ rest, run step (limit + 1) c = step c :: rest := by
  cases ho : (step c).move.outcome? with
  | some o => exact ⟨[], run_succ_of_outcome step limit c ho⟩
  | none => exact ⟨_, run_succ_of_none step limit c ho⟩

/-! ## Properties that steps keep -/

/-- A property that every step keeps holds at all moments after the first one. -/
theorem forall_mem_run {Inv : σ → Prop} (hstep : ∀ c, Inv c → Inv (step c).config) :
    (limit : Nat) → (c : σ) → Inv c → ∀ moment ∈ run step limit c, Inv moment.config
  | 0, c, hc, moment, hm => by
      rw [run, List.mem_singleton] at hm
      exact hm ▸ hc
  | limit + 1, c, hc, moment, hm => by
      cases ho : (step c).move.outcome? with
      | some o =>
          rw [run_succ_of_outcome step limit c ho, List.mem_singleton] at hm
          exact hm ▸ hstep c hc
      | none =>
          rw [run_succ_of_none step limit c ho, List.mem_cons] at hm
          rcases hm with rfl | hm
          · exact hstep c hc
          · exact forall_mem_run hstep limit _ (hstep c hc) moment hm

/-- A property of the first configuration that every step keeps holds at all moments of a run. -/
theorem forall_mem_trace {Inv : σ → Prop} (hstep : ∀ c, Inv c → Inv (step c).config)
    (limit : Nat) {c : σ} (hc : Inv c) : ∀ moment ∈ trace step limit c, Inv moment.config := by
  intro moment hm
  rcases List.mem_cons.mp hm with rfl | hm
  · exact hc
  · exact forall_mem_run hstep limit c hc moment hm

/-! ## Steps that do not end a run -/

/-- A number of steps none of which ends the run. -/
inductive Steps (step : σ → Moment σ) : Nat → σ → σ → Prop
  | refl (c : σ) : Steps step 0 c c
  | head {n : Nat} {c c' : σ} (ho : (step c).move.outcome? = none)
      (rest : Steps step n (step c).config c') : Steps step (n + 1) c c'

/-- The first moments after a configuration, as if no step ended the run. -/
def firstMoments (step : σ → Moment σ) : Nat → σ → List (Moment σ)
  | 0, _ => []
  | n + 1, c => step c :: firstMoments step n (step c).config

@[simp] theorem length_firstMoments (step : σ → Moment σ) :
    (n : Nat) → (c : σ) → (firstMoments step n c).length = n
  | 0, _ => rfl
  | n + 1, c => by rw [firstMoments, List.length_cons, length_firstMoments step n]

namespace Steps

variable {m n : Nat} {c c' c'' : σ}

/-- One step. -/
theorem single {moment : Moment σ} (h : step c = moment) (ho : moment.move.outcome? = none) :
    Steps step 1 c moment.config := by
  subst h
  exact .head ho (.refl _)

/-- A property that every step that does not end the run keeps. -/
theorem inv {Inv : σ → Prop}
    (hstep : ∀ c, Inv c → (step c).move.outcome? = none → Inv (step c).config)
    (h : Steps step n c c') (hc : Inv c) : Inv c' := by
  induction h with
  | refl => exact hc
  | head ho _ ih => exact ih (hstep _ hc ho)

/-- Steps follow one another. -/
theorem trans (h : Steps step m c c') (h' : Steps step n c' c'') : Steps step (m + n) c c'' := by
  induction h with
  | refl => rwa [Nat.zero_add]
  | head ho _ ih =>
      rw [Nat.add_right_comm]
      exact .head ho (ih h')

/-- A run begins with the steps that do not end it. -/
theorem run_eq (h : Steps step n c c') (limit : Nat) :
    run step (n + limit) c = firstMoments step n c ++ run step limit c' := by
  induction h with
  | refl c => rw [Nat.zero_add, firstMoments, List.nil_append]
  | @head n c c' ho _ ih =>
      rw [Nat.add_right_comm, run_succ_of_none step _ c ho, ih, firstMoments, List.cons_append]

/-- A run that is permitted no more steps ends with a record of the limit. -/
theorem run_of_limit (h : Steps step n c c') :
    run step n c = firstMoments step n c ++ [⟨.stepLimit, c'⟩] := h.run_eq 0

/-- A run that is permitted another step ends with it, if that step has an outcome. -/
theorem run_of_outcome (h : Steps step n c c') {limit : Nat} (hlt : n < limit) {o : Outcome}
    (ho : (step c').move.outcome? = some o) :
    run step limit c = firstMoments step n c ++ [step c'] := by
  obtain ⟨extra, rfl⟩ := Nat.exists_eq_add_of_lt hlt
  rw [Nat.add_assoc, h.run_eq, run_succ_of_outcome step extra c' ho]

/-- The last of the first moments has the configuration that the steps lead to. -/
theorem exists_last (h : Steps step n c c') (move : Move) :
    ∃ before last, ⟨move, c⟩ :: firstMoments step n c = before ++ [last] ∧
      before.length = n ∧ last.config = c' := by
  induction h generalizing move with
  | refl c => exact ⟨[], ⟨move, c⟩, rfl, rfl, rfl⟩
  | @head n c c' _ _ ih =>
      obtain ⟨before, last, hfirst, hlength, hlast⟩ := ih (step c).move
      refine ⟨⟨move, c⟩ :: before, last, ?_, congrArg Nat.succ hlength, hlast⟩
      rw [firstMoments, List.cons_append, ← hfirst]

end Steps

/-! ## The end of a run -/

/-- As many steps as are permitted can be made, or the run ends before. -/
theorem steps_or_end (step : σ → Moment σ) :
    (limit : Nat) → (c : σ) → (∃ c', Steps step limit c c') ∨
      ∃ n c' o, n < limit ∧ Steps step n c c' ∧ (step c').move.outcome? = some o
  | 0, c => Or.inl ⟨c, .refl c⟩
  | limit + 1, c => by
      cases ho : (step c).move.outcome? with
      | some o => exact Or.inr ⟨0, c, o, Nat.succ_pos limit, .refl c, ho⟩
      | none =>
          rcases steps_or_end step limit (step c).config with
            ⟨c', hsteps⟩ | ⟨n, c', o, hlt, hsteps, ho'⟩
          · exact Or.inl ⟨c', .head ho hsteps⟩
          · exact Or.inr ⟨n + 1, c', o, Nat.succ_lt_succ hlt, .head ho hsteps, ho'⟩

/-- A run makes a number of steps, and ends with a record of the limit or with one more step, which
has an outcome. -/
theorem getLast?_run (step : σ → Moment σ) (limit : Nat) (c : σ) :
    ∃ n c', Steps step n c c' ∧
      ((run step limit c).getLast? = some ⟨.stepLimit, c'⟩ ∨
        (run step limit c).getLast? = some (step c') ∧ (step c').move.outcome?.isSome) := by
  rcases steps_or_end step limit c with ⟨c', hsteps⟩ | ⟨n, c', o, hlt, hsteps, ho⟩
  · refine ⟨limit, c', hsteps, Or.inl ?_⟩
    rw [hsteps.run_of_limit, List.getLast?_concat]
  · refine ⟨n, c', hsteps, Or.inr ⟨?_, Option.isSome_of_eq_some ho⟩⟩
    rw [hsteps.run_of_outcome hlt ho, List.getLast?_concat]

/-- A trace ends like the run in it. -/
theorem getLast?_trace (limit : Nat) (c : σ) :
    (trace step limit c).getLast? = (run step limit c).getLast? := by
  rw [trace, List.getLast?_cons]
  cases h : (run step limit c).getLast? with
  | none => exact absurd (List.getLast?_eq_none_iff.mp h) (run_ne_nil step limit c)
  | some moment => rfl

/-- The outcome of a run is that of its last moment. -/
theorem outcome_of_getLast? {moments : List (Moment σ)} {moment : Moment σ} {o : Outcome}
    (hlast : moments.getLast? = some moment) (ho : moment.move.outcome? = some o) :
    outcome moments = o := by
  rw [outcome, hlast, Option.bind_some, ho, Option.getD_some]

/-- A run that does not end at the limit ends with a step that has its outcome. -/
theorem exists_last_step {limit : Nat} {c : σ}
    (hlimit : outcome (trace step limit c) ≠ .stepLimit) :
    ∃ n c', Steps step n c c' ∧ (trace step limit c).getLast? = some (step c') ∧
      (step c').move.outcome? = some (outcome (trace step limit c)) := by
  obtain ⟨n, c', hsteps, hlast⟩ := getLast?_run step limit c
  rw [← getLast?_trace] at hlast
  rcases hlast with hlast | ⟨hlast, hsome⟩
  · exact absurd (outcome_of_getLast? hlast rfl) hlimit
  · obtain ⟨o, ho⟩ := Option.isSome_iff_exists.mp hsome
    rw [outcome_of_getLast? hlast ho]
    exact ⟨n, c', hsteps, hlast, ho⟩

/-- An accepted run ends with an accepting step from a configuration with every property that the
steps keep. -/
theorem exists_accepting_step {Inv : σ → Prop} (hstep : ∀ c, Inv c → Inv (step c).config)
    {limit : Nat} {c : σ} (hc : Inv c) (ho : outcome (trace step limit c) = .accepted) :
    ∃ c', Inv c' ∧ (trace step limit c).getLast? = some (step c') ∧
      (step c').move.outcome? = some .accepted := by
  have hlimit : outcome (trace step limit c) ≠ .stepLimit := by simp [ho]
  obtain ⟨n, c', hsteps, hlast, hlast'⟩ := exists_last_step hlimit
  rw [ho] at hlast'
  exact ⟨c', hsteps.inv (fun c hc _ => hstep c hc) hc, hlast, hlast'⟩

/-- Steps that do not end a run and one that does are the whole run. -/
theorem trace_of_steps {n limit : Nat} {c c' : σ} (h : Steps step n c c') (hl : n + 1 ≤ limit)
    {o : Outcome} (ho : (step c').move.outcome? = some o) :
    (trace step limit c).length = n + 2 ∧ (trace step limit c).getLast? = some (step c') := by
  have hrun := h.run_of_outcome hl ho
  constructor
  · rw [trace, hrun, List.length_cons, List.length_append, length_firstMoments,
      List.length_singleton]
  · rw [getLast?_trace, hrun, List.getLast?_concat]

end Machine

end TableParsing
