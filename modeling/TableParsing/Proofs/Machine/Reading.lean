import TableParsing.Proofs.Machine.Run

/-!
# What a machine sees of its input

A machine that reads from the left sees of its input the first symbol, and a step leaves the input
or takes that symbol off (`ReadsOn`). So what is behind the next symbol can be exchanged without a
difference to the steps that lead there (`ReadsOn.steps_withInput`), and to those that come after as
long as the symbol is not read: if the run on the other input ends, this one ends as well or reads
the symbol (`ReadsOn.exists_read_or_end`).

Whether the run ends may also depend on whether the first symbol is the last one (`ReadsOne`). If
such a machine ends with that symbol still to be read, it ends in the same way on all inputs that
agree up to it (`ReadsOne.outcome_eq`).
-/

namespace TableParsing.Machine

variable {σ : Type} {step : σ → Moment σ}

/-- A run has one end only. -/
theorem Steps.outcome_unique {m n : Nat} {c c' d : σ} {o o' : Outcome} (h : Steps step n c c')
    (ho : (step c').move.outcome? = some o) (h' : Steps step m c d)
    (ho' : (step d).move.outcome? = some o') : o = o' := by
  induction h generalizing m with
  | refl c =>
      cases h' with
      | refl => exact Option.some.inj (ho.symm.trans ho')
      | head hnone _ =>
          rw [hnone] at ho
          cases ho
  | head hnone _ ih =>
      cases h' with
      | refl =>
          rw [hnone] at ho'
          cases ho'
      | head _ rest => exact ih ho rest

/-- Of two runs from one configuration the one that ends goes on where the other has got to. -/
theorem Steps.exists_rest {m n : Nat} {c c' d : σ} (h : Steps step n c c') (h' : Steps step m c d)
    (ho : (step d).move.outcome?.isSome) : ∃ k, Steps step k c' d := by
  induction h generalizing m with
  | refl => exact ⟨m, h'⟩
  | head hnone _ ih =>
      cases h' with
      | refl =>
          rw [hnone] at ho
          cases ho
      | head _ rest => exact ih rest

/-- A machine whose steps, as long as they go on, see the first symbol of the input only. -/
structure ReadsOn (step : σ → Moment σ) (input : σ → List Symbol)
    (withInput : σ → List Symbol → σ) : Prop where
  /-- A step does not make the input longer. -/
  length_le : ∀ c, (input (step c).config).length ≤ (input c).length
  /-- Whatever comes behind the first symbol, a step that goes on does the same, and leaves the
  input or takes that symbol off. -/
  step_withInput : ∀ c s xs ys, input c = s :: xs → (step c).move.outcome? = none →
    ∃ count ≤ 1, input (step c).config = (s :: xs).drop count ∧
      step (withInput c (s :: ys)) =
        ⟨(step c).move, withInput (step c).config ((s :: ys).drop count)⟩

/-- A machine that sees the first symbol of its input, and whether more come behind it. -/
structure ReadsOne (step : σ → Moment σ) (input : σ → List Symbol)
    (withInput : σ → List Symbol → σ) : Prop extends ReadsOn step input withInput where
  /-- A step does the same whatever comes behind the first symbol, if something does. -/
  move_withInput : ∀ c s xs ys, input c = s :: xs → xs ≠ [] → ys ≠ [] →
    (step (withInput c (s :: ys))).move = (step c).move
  /-- A step that ends the run leaves the input. -/
  input_of_outcome : ∀ c o, (step c).move.outcome? = some o → input (step c).config = input c

section reading

variable {input : σ → List Symbol} {withInput : σ → List Symbol → σ} {m n : Nat} {c c' d : σ}
  {t : Symbol} {xs ys : List Symbol}

namespace ReadsOn

variable (h : ReadsOn step input withInput)
include h

/-- Steps do not make the input longer. -/
theorem length_le_of_steps (hsteps : Steps step n c c') :
    (input c').length ≤ (input c).length := by
  induction hsteps with
  | refl => exact Nat.le_refl _
  | head _ _ ih => exact ih.trans (h.length_le _)

/-- Steps that do not read a symbol do not depend on what comes behind it. -/
theorem steps_withInput (hsteps : Steps step n c c') (hunread : input c' = t :: xs)
    (ys : List Symbol) : ∀ before, input c = before ++ t :: xs →
      Steps step n (withInput c (before ++ t :: ys)) (withInput c' (t :: ys)) := by
  induction hsteps with
  | refl c =>
      intro before hinput
      have hbefore : before = [] := by
        rw [hunread] at hinput
        exact List.self_eq_append_left.mp hinput
      rw [hbefore]
      exact .refl _
  | @head n c c' ho rest ih =>
      intro before hinput
      obtain ⟨hmove, hrest⟩ :
          (step (withInput c (before ++ t :: ys))).move = (step c).move ∧
            Steps step n (step (withInput c (before ++ t :: ys))).config
              (withInput c' (t :: ys)) := by
        cases before with
        | nil =>
            -- The symbol stays, because it is there later.
            obtain ⟨count, -, hafter, hstep⟩ := h.step_withInput c t xs ys hinput ho
            obtain rfl : count = 0 := by
              have hlength := h.length_le_of_steps rest
              rw [hunread, hafter, List.length_drop, List.length_cons] at hlength
              omega
            rw [List.nil_append, hstep]
            exact ⟨rfl, ih hunread [] hafter⟩
        | cons s before =>
            obtain ⟨count, hcount, hafter, hstep⟩ :=
              h.step_withInput c s (before ++ t :: xs) (before ++ t :: ys) hinput ho
            rw [List.cons_append, hstep]
            refine ⟨rfl, ?_⟩
            rcases Nat.le_one_iff_eq_zero_or_eq_one.mp hcount with rfl | rfl
            · exact ih hunread (s :: before) hafter
            · exact ih hunread before hafter
      rw [← hmove] at ho
      exact .head ho hrest

/-- If the run ends with something else behind the first symbol, it ends or reads that symbol. -/
theorem exists_read_or_end (hother : Steps step m (withInput c (t :: ys)) d)
    (ho : (step d).move.outcome?.isSome) (hinput : input c = t :: xs) :
    ∃ k c', Steps step k c c' ∧ ((step c').move.outcome?.isSome ∨ input c' = xs) := by
  induction m generalizing c with
  | zero =>
      refine ⟨0, c, .refl c, Or.inl ?_⟩
      cases hnone : (step c).move.outcome? with
      | some o => rfl
      | none =>
          obtain ⟨count, -, -, hstep⟩ := h.step_withInput c t xs ys hinput hnone
          cases hother
          rw [hstep, hnone] at ho
          exact ho
  | succ m ih =>
      cases hnone : (step c).move.outcome? with
      | some o => exact ⟨0, c, .refl c, Or.inl (by rw [hnone]; rfl)⟩
      | none =>
          obtain ⟨count, hcount, hafter, hstep⟩ := h.step_withInput c t xs ys hinput hnone
          rcases Nat.le_one_iff_eq_zero_or_eq_one.mp hcount with rfl | rfl
          · cases hother with
            | head _ rest =>
                rw [hstep] at rest
                obtain ⟨k, c', hsteps, hend⟩ := ih rest hafter
                exact ⟨k + 1, c', .head hnone hsteps, hend⟩
          · exact ⟨1, _, .single rfl hnone, Or.inr hafter⟩

end ReadsOn

/-- Two runs on inputs that agree up to a symbol end alike, if one of them ends without reading that
symbol. -/
theorem ReadsOne.outcome_eq (h : ReadsOne step input withInput) {before : List Symbol}
    (hsteps : Steps step n c c') (hxs : xs ≠ []) (hys : ys ≠ [])
    (hinput : input c = before ++ t :: xs) (hunread : input c' = t :: xs) {o o' : Outcome}
    (ho : (step c').move.outcome? = some o)
    (hother : Steps step m (withInput c (before ++ t :: ys)) d)
    (ho' : (step d).move.outcome? = some o') : o = o' := by
  have hsame := h.steps_withInput hsteps hunread ys before hinput
  refine hsame.outcome_unique ?_ hother ho'
  rw [h.move_withInput c' t xs ys hunread hxs hys]
  exact ho

end reading

end TableParsing.Machine
