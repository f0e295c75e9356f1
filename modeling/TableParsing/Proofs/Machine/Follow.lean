import TableParsing.Proofs.Machine.Run

/-!
# A machine that follows another

Two machines run side by side: a map takes the configurations of the one to those of the other, and
each step of the first is a step of the second between the images, unless it is of a kind that the
second cannot make, which then stops (`Follows`). So the second records what the first records up to
the first step of that kind, and one more record in the place of that step (`Follows.trace_eq`).
-/

namespace TableParsing

variable {α β σ τ : Type}

/-! ## Lists that are cut -/

/-- The elements up to the first one with a successor of some kind, and what stands in the place of
that successor. -/
def cutAt (stops : α → α → Bool) (instead : α → α) : List α → List α
  | last :: next :: after =>
    if stops last next then [last, instead last] else last :: cutAt stops instead (next :: after)
  | [last] => [last]
  | [] => []

section cut

variable {stops : α → α → Bool} {instead : α → α}

/-- Without such a successor nothing is cut. -/
theorem cutAt_eq_self :
    (records : List α) → (∀ pair ∈ records.zip records.tail, stops pair.1 pair.2 = false) →
      cutAt stops instead records = records
  | [], _ => rfl
  | [_], _ => rfl
  | last :: next :: after, h => by
      have hfirst : stops last next = false := h (last, next) List.mem_cons_self
      have hrest := cutAt_eq_self (next :: after) fun pair hpair =>
        h pair (List.mem_cons_of_mem _ hpair)
      rw [cutAt, hfirst, if_neg Bool.false_ne_true, hrest]

/-- With such a successor the list ends with what stands in its place. -/
theorem getLast?_cutAt :
    (records : List α) → (∃ pair ∈ records.zip records.tail, stops pair.1 pair.2 = true) →
      ∃ last ∈ records, (cutAt stops instead records).getLast? = some (instead last)
  | [], ⟨_, hpair, _⟩ => absurd hpair List.not_mem_nil
  | [_], ⟨_, hpair, _⟩ => absurd hpair List.not_mem_nil
  | first :: next :: after, ⟨pair, hpair, hstops⟩ => by
      rw [cutAt]
      split
      · exact ⟨first, List.mem_cons_self, rfl⟩
      · next hfirst =>
          have hrest : pair ∈ (next :: after).zip after := by
            refine (List.mem_cons.mp hpair).resolve_left ?_
            rintro rfl
            exact hfirst hstops
          obtain ⟨last, hlast, hcut⟩ := getLast?_cutAt (next :: after) ⟨pair, hrest, hstops⟩
          refine ⟨last, List.mem_cons_of_mem _ hlast, ?_⟩
          rw [List.getLast?_cons, hcut]
          rfl

/-- What is left is in the list, or it stands in the place of a successor. -/
theorem mem_cutAt {x : α} :
    (records : List α) → x ∈ cutAt stops instead records →
      x ∈ records ∨ ∃ last ∈ records, x = instead last
  | [], h => Or.inl h
  | [_], h => Or.inl h
  | first :: next :: after, h => by
      rw [cutAt] at h
      split at h
      · rcases List.mem_pair.mp h with rfl | rfl
        · exact Or.inl List.mem_cons_self
        · exact Or.inr ⟨first, List.mem_cons_self, rfl⟩
      · rcases List.mem_cons.mp h with rfl | h
        · exact Or.inl List.mem_cons_self
        · rcases mem_cutAt (next :: after) h with h | ⟨last, hlast, hx⟩
          · exact Or.inl (List.mem_cons_of_mem _ h)
          · exact Or.inr ⟨last, List.mem_cons_of_mem _ hlast, hx⟩

/-- A list is cut where its image is cut. -/
theorem map_cutAt {stops' : β → β → Bool} {instead' : β → β} {f : α → β}
    (hstops : ∀ last next, stops' (f last) (f next) = stops last next)
    (hinstead : ∀ last, instead' (f last) = f (instead last)) :
    (records : List α) →
      (cutAt stops instead records).map f = cutAt stops' instead' (records.map f)
  | [] => rfl
  | [_] => rfl
  | last :: next :: after => by
      have hrest := map_cutAt hstops hinstead (next :: after)
      rw [List.map_cons] at hrest
      rw [List.map_cons, List.map_cons, cutAt, cutAt, hstops, ← hrest, hinstead]
      split <;> rfl

end cut

/-! ## The two machines -/

/-- The moment with the image of its configuration. -/
def Moment.map (f : σ → τ) (moment : Moment σ) : Moment τ := ⟨moment.move, f moment.config⟩

namespace Machine

/-- The outcome of a run is told by its moves. -/
theorem outcome_map (f : σ → τ) (moments : List (Moment σ)) :
    outcome (moments.map (Moment.map f)) = outcome moments := by
  rw [outcome, outcome, List.getLast?_map]
  cases moments.getLast? <;> rfl

/-- The last moment of the images is the image of the last moment. -/
theorem lastMoment_map (f : σ → τ) (first : Moment σ) (moments : List (Moment σ)) :
    lastMoment (first.map f) (moments.map (Moment.map f)) = (lastMoment first moments).map f := by
  rw [lastMoment, lastMoment, List.getLast?_map]
  cases moments.getLast? <;> rfl

/-- The map takes the steps of the one machine to steps of the other, which stops at some moves of
the first. -/
structure Follows (stops : σ → Move → Bool) (missing : Move) (Inv : σ → Prop) (f : σ → τ)
    (step : σ → Moment σ) (step' : τ → Moment τ) : Prop where
  /-- Stopping ends the run. -/
  outcome_missing : missing.outcome?.isSome
  /-- The limit does not make the other machine stop. -/
  stops_stepLimit : ∀ c, stops c .stepLimit = false
  /-- The property of the configurations is kept. -/
  inv_step : ∀ c, Inv c → Inv (step c).config
  /-- The other machine makes the same step or stops. -/
  step_eq : ∀ c, Inv c →
    step' (f c) = if stops c (step c).move then ⟨missing, f c⟩ else (step c).map f

/-- Cuts the moments of a run at the first move of some kind. -/
def cut (stops : σ → Move → Bool) (missing : Move) : List (Moment σ) → List (Moment σ) :=
  cutAt (fun last next => stops last.config next.move) (fun last => ⟨missing, last.config⟩)

section cut

variable {stops : σ → Move → Bool} {missing : Move} {moments : List (Moment σ)}

/-- Without moves of the kind nothing is cut. -/
theorem cut_eq_self
    (h : ¬ ∃ pair ∈ moments.zip moments.tail, stops pair.1.config pair.2.move = true) :
    cut stops missing moments = moments :=
  cutAt_eq_self moments fun pair hpair =>
    Bool.eq_false_of_not_eq_true fun hstops => h ⟨pair, hpair, hstops⟩

/-- With a move of the kind the last one is that in its place. -/
theorem getLast?_cut
    (h : ∃ pair ∈ moments.zip moments.tail, stops pair.1.config pair.2.move = true) :
    ∃ last ∈ moments, (cut stops missing moments).getLast? = some ⟨missing, last.config⟩ :=
  getLast?_cutAt moments h

/-- The configurations that are left are configurations of the run. -/
theorem exists_config_eq_of_mem_cut {moment : Moment σ} (h : moment ∈ cut stops missing moments) :
    ∃ original ∈ moments, original.config = moment.config := by
  rcases mem_cutAt moments h with h | ⟨last, hlast, rfl⟩
  · exact ⟨moment, h, rfl⟩
  · exact ⟨last, hlast, rfl⟩

end cut

namespace Follows

variable {stops : σ → Move → Bool} {missing : Move} {Inv : σ → Prop} {f : σ → τ}
  {step : σ → Moment σ} {step' : τ → Moment τ} (h : Follows stops missing Inv f step step')
include h

/-- The moments of the other machine from some moment on. -/
theorem run_eq :
    (limit : Nat) → (move : Move) → (c : σ) → Inv c →
      ⟨move, f c⟩ :: run step' limit (f c) =
        (cut stops missing (⟨move, c⟩ :: run step limit c)).map (Moment.map f)
  | 0, move, c, _ => by
      rw [run, run, cut, cutAt, h.stops_stepLimit]
      rfl
  | limit + 1, move, c, hc => by
      have hstep := h.step_eq c hc
      cases hstops : stops c (step c).move with
      | true =>
          rw [hstops, if_pos rfl] at hstep
          obtain ⟨o, ho⟩ := Option.isSome_iff_exists.mp h.outcome_missing
          have ho' : (step' (f c)).move.outcome? = some o := by rwa [hstep]
          obtain ⟨rest, hrun⟩ := exists_run_eq_cons step limit c
          rw [run_succ_of_outcome step' limit (f c) ho', hstep, hrun, cut, cutAt, hstops]
          rfl
      | false =>
          rw [hstops, if_neg Bool.false_ne_true] at hstep
          have hmove : (step' (f c)).move = (step c).move := by rw [hstep]; rfl
          have hconfig : (step' (f c)).config = f (step c).config := by rw [hstep]; rfl
          cases ho : (step c).move.outcome? with
          | some o =>
              rw [run_succ_of_outcome step limit c ho,
                run_succ_of_outcome step' limit (f c) (hmove ▸ ho), hstep, cut, cutAt, hstops]
              rfl
          | none =>
              have ih := run_eq limit (step c).move (step c).config (h.inv_step c hc)
              rw [run_succ_of_none step limit c ho,
                run_succ_of_none step' limit (f c) (hmove ▸ ho), hconfig, hstep, cut, cutAt, hstops,
                if_neg Bool.false_ne_true, List.map_cons]
              exact congrArg _ ih

/-- The other machine records the same up to a move at which it stops. -/
theorem trace_eq (limit : Nat) {c : σ} (hc : Inv c) :
    trace step' limit (f c) = (cut stops missing (trace step limit c)).map (Moment.map f) :=
  h.run_eq limit .start c hc

end Follows

end Machine

end TableParsing
