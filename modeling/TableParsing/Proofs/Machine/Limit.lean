import TableParsing.Proofs.Machine.Run

/-!
# Runs with different limits

The limit of a run does not change what the machine does, only how long it is watched. A run that
ends by itself is the same under every larger limit (`trace_of_outcome_ne`). One that is cut short
has a moment for each permitted step, and all of them, with the start, are the first moments of a
run with a larger limit (`exists_cut`).
-/

namespace TableParsing.Machine

variable {σ : Type} {step : σ → Moment σ} {n m : Nat} {c c' : σ}

/-- A run is cut short if the permitted steps do not end it. -/
theorem Steps.outcome_trace (h : Steps step n c c') : outcome (trace step n c) = .stepLimit := by
  have hlast : (trace step n c).getLast? = some ⟨.stepLimit, c'⟩ := by
    rw [getLast?_trace, h.run_of_limit, List.getLast?_concat]
  exact outcome_of_getLast? hlast rfl

/-- A run that ends by itself is the same under every larger limit. -/
theorem trace_of_outcome_ne (hle : n ≤ m) (hne : outcome (trace step n c) ≠ .stepLimit) :
    trace step m c = trace step n c := by
  rcases steps_or_end step n c with ⟨c', hsteps⟩ | ⟨k, c', o, hlt, hsteps, ho⟩
  · exact absurd hsteps.outcome_trace hne
  · rw [trace, trace, hsteps.run_of_outcome hlt ho, hsteps.run_of_outcome (hlt.trans_le hle) ho]

/-- A run that is cut short has a moment for each step, and these are the first moments of every
run with a larger limit. -/
theorem exists_cut (hstep : ∀ c, (step c).move.outcome? ≠ some .stepLimit)
    (hcut : outcome (trace step n c) = .stepLimit) :
    ∃ before last, before.length = n ∧
      trace step n c = before ++ [last, ⟨.stepLimit, last.config⟩] ∧
      ∀ m, n ≤ m → before ++ [last] <+: trace step m c := by
  rcases steps_or_end step n c with ⟨c', hsteps⟩ | ⟨k, c', o, hlt, hsteps, ho⟩
  · obtain ⟨before, last, hfirst, hlength, hlast⟩ := hsteps.exists_last .start
    refine ⟨before, last, hlength, ?_, fun m hle => ?_⟩
    · rw [trace, hsteps.run_of_limit, ← List.cons_append, hfirst, hlast, List.append_assoc]
      rfl
    · obtain ⟨extra, rfl⟩ := Nat.exists_eq_add_of_le hle
      rw [trace, hsteps.run_eq, ← List.cons_append, hfirst]
      exact List.prefix_append _ _
  · -- The move of the last step has another outcome.
    have hlast : (trace step n c).getLast? = some (step c') := by
      rw [getLast?_trace, hsteps.run_of_outcome hlt ho, List.getLast?_concat]
    rw [← outcome_of_getLast? hlast ho, hcut] at ho
    exact absurd ho (hstep c')

/-- A run has at most one moment for each permitted step, the start and a record of the limit. -/
theorem length_trace_le (step : σ → Moment σ) (n : Nat) (c : σ) :
    (trace step n c).length ≤ n + 2 := by
  rcases steps_or_end step n c with ⟨c', hsteps⟩ | ⟨k, c', o, hlt, hsteps, ho⟩
  · simp [trace, hsteps.run_of_limit]
  · rw [trace, hsteps.run_of_outcome hlt ho]
    simp only [List.length_cons, List.length_append, length_firstMoments, List.length_nil]
    omega

end TableParsing.Machine
