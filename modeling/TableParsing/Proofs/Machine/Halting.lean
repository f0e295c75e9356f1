import TableParsing.Proofs.Machine.Run

/-!
# Runs that end by themselves

A run from a configuration ends by itself if some steps lead to one that ends it (`Halts`). Then all
limits from some bound on permit the whole run, and none of them is met (`Halts.exists_bound`).

To show that a run ends it is enough to make progress: as long as it goes on, some number of steps
leads to a configuration with a smaller measure (`halts_of_progress`). The steps in between may make
the measure larger, so a stack may grow before it shrinks again.
-/

namespace TableParsing.Machine

variable {σ : Type} {step : σ → Moment σ} {n : Nat} {c c' : σ}

/-- The run from a configuration ends by itself, and not with a record of the limit. -/
def Halts (step : σ → Moment σ) (c : σ) : Prop :=
  ∃ n c' o, Steps step n c c' ∧ (step c').move.outcome? = some o ∧ o ≠ .stepLimit

namespace Halts

/-- The run ends with the next step. -/
theorem of_outcome {o : Outcome} (ho : (step c).move.outcome? = some o) (hne : o ≠ .stepLimit) :
    Halts step c := ⟨0, c, o, .refl c, ho, hne⟩

/-- Steps may come before a run that ends. -/
theorem of_steps (hsteps : Steps step n c c') (h : Halts step c') : Halts step c := by
  obtain ⟨m, d, o, hrest, ho, hne⟩ := h
  exact ⟨n + m, d, o, hsteps.trans hrest, ho, hne⟩

/-- From some bound on, no limit is met. -/
theorem exists_bound (h : Halts step c) :
    ∃ bound : Int, ∀ (maxSteps : Int) (endSymbol : Symbol), bound ≤ maxSteps →
      outcome (trace step (RunOptions.limit ⟨maxSteps, endSymbol⟩) c) ≠ .stepLimit := by
  obtain ⟨n, c', o, hsteps, ho, hne⟩ := h
  refine ⟨(n + 1 : Nat), fun maxSteps endSymbol hbound => ?_⟩
  have hlimit : n + 1 ≤ RunOptions.limit ⟨maxSteps, endSymbol⟩ := RunOptions.le_limit hbound
  rwa [outcome_of_getLast? (trace_of_steps hsteps hlimit ho).2 ho]

end Halts

/-- A run ends by itself if it makes progress: from every configuration that it gets to it ends, or
steps lead to one with a smaller measure. -/
theorem halts_of_progress {α : Type} [Preorder α] [WellFoundedLT α] (measure : σ → α)
    (hprogress : ∀ n c', Steps step n c c' → Halts step c' ∨
      ∃ m d, Steps step m c' d ∧ measure d < measure c') : Halts step c := by
  have hreached : ∀ n c', Steps step n c c' → Halts step c' := by
    intro n c' hsteps
    induction hmeasure : measure c' using WellFoundedLT.induction generalizing n c' with
    | _ least ih =>
        rcases hprogress n c' hsteps with hhalts | ⟨m, d, hrest, hlt⟩
        · exact hhalts
        · exact .of_steps hrest (ih (measure d) (hmeasure ▸ hlt) (n + m) d (hsteps.trans hrest) rfl)
  exact hreached 0 c (.refl c)

end TableParsing.Machine
