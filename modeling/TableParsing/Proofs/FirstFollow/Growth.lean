import TableParsing.FirstFollow.Saturation
import TableParsing.Proofs.SymbolSet

/-!
# Saturation

What passes through a list of clauses do, whatever the clauses are. A run of passes is a `Growth`:
a sequence of enlargements, each for a clause that failed, in which every step starts from the sets
that the step before it left (`growth_saturate`). So a property that enlargements keep holds of the
result (`Growth.inv`), and a measure that every enlargement raises bounds their number
(`Growth.length_le`).

If every growth is shorter than the permitted number of passes, the passes end because one of them
changes nothing (`settles_saturate`), as they would without a bound (`Settles`). Then all clauses
hold (`saturate_holds`), and as every pass but the last enlarges a set, there are at most as many
passes as enlargements and one more (`Settles.passes_le`).
-/

namespace TableParsing.FirstFollow

/-- The set of the clause's symbol includes what the clause contributes. -/
def Clause.Holds (sets : Sets) (clause : Clause) : Prop :=
  ∀ s ∈ clause.contribution sets, s ∈ clause.current sets

/-- The set of the clause's symbol with the contribution of the clause added. -/
def Clause.after (sets : Sets) (clause : Clause) : SymbolSet :=
  clause.current sets ∪ clause.contribution sets

/-- The sets with the clause's contribution added. -/
def Clause.enlarge (sets : Sets) (clause : Clause) : Sets := clause.assign sets (clause.after sets)

/-- Adding the contribution of a clause changes nothing iff the clause holds. -/
theorem Clause.after_eq_current_iff {sets : Sets} {clause : Clause} :
    clause.after sets = clause.current sets ↔ clause.Holds sets := SymbolSet.union_eq_left_iff

/-- A sequence of enlargements by clauses of a list that failed, from some sets to others. -/
inductive Growth (clauses : List Clause) : Sets → List Update → Sets → Prop
  | nil (sets : Sets) : Growth clauses sets [] sets
  | cons {sets final : Sets} {clause : Clause} {updates : List Update} (hmem : clause ∈ clauses)
      (hfails : ¬ clause.Holds sets) (rest : Growth clauses (clause.enlarge sets) updates final) :
      Growth clauses sets (⟨clause, clause.enlarge sets⟩ :: updates) final

namespace Growth

variable {clauses : List Clause} {sets middle final : Sets} {updates updates' : List Update}

/-- Growths follow one another. -/
theorem append (h : Growth clauses sets updates middle)
    (h' : Growth clauses middle updates' final) :
    Growth clauses sets (updates ++ updates') final := by
  induction h with
  | nil => exact h'
  | cons hmem hfails _ ih => exact .cons hmem hfails (ih h')

/-- A growth by some clauses is one by more clauses. -/
theorem mono {clauses' : List Clause} (hsub : ∀ clause ∈ clauses, clause ∈ clauses')
    (h : Growth clauses sets updates final) : Growth clauses' sets updates final := by
  induction h with
  | nil => exact .nil _
  | cons hmem hfails _ ih => exact .cons (hsub _ hmem) hfails ih

/-- A property that enlargements keep holds at the end. -/
theorem inv (Inv : Sets → Prop)
    (hstep : ∀ sets, ∀ clause ∈ clauses, Inv sets → Inv (clause.enlarge sets))
    (h : Growth clauses sets updates final) (hinv : Inv sets) : Inv final := by
  induction h with
  | nil => exact hinv
  | cons hmem _ _ ih => exact ih (hstep _ _ hmem hinv)

/-- A property that enlargements keep holds after each of them. -/
theorem inv_updates (Inv : Sets → Prop)
    (hstep : ∀ sets, ∀ clause ∈ clauses, Inv sets → Inv (clause.enlarge sets))
    (h : Growth clauses sets updates final) (hinv : Inv sets) :
    ∀ update ∈ updates, Inv update.sets := by
  induction h with
  | nil => exact fun _ hmem => absurd hmem List.not_mem_nil
  | cons hmem _ _ ih =>
      have hnext := hstep _ _ hmem hinv
      exact List.forall_mem_cons.mpr ⟨hnext, ih hnext⟩

/-- A measure that rises with every enlargement bounds the number of enlargements. -/
theorem length_le (Inv : Sets → Prop) (measure : Sets → Nat)
    (hstep : ∀ sets, ∀ clause ∈ clauses, Inv sets → Inv (clause.enlarge sets))
    (hrise : ∀ sets, ∀ clause ∈ clauses, Inv sets → ¬ clause.Holds sets →
      measure sets < measure (clause.enlarge sets))
    (h : Growth clauses sets updates final) (hinv : Inv sets) :
    measure sets + updates.length ≤ measure final := by
  induction h with
  | nil => exact Nat.le_refl _
  | @cons sets final clause updates hmem hfails _ ih =>
      have hlt := hrise sets clause hmem hinv hfails
      have hle := ih (hstep sets clause hmem hinv)
      rw [List.length_cons]
      omega

end Growth

/-! ## Passes -/

/-- A clause that holds is passed over, and any other enlarges its set. -/
theorem sweep_cons (clause : Clause) (rest : List Clause) (sets : Sets) :
    sweep (clause :: rest) sets =
      if clause.after sets = clause.current sets then sweep rest sets
      else
        (⟨clause, clause.enlarge sets⟩ :: (sweep rest (clause.enlarge sets)).1,
          (sweep rest (clause.enlarge sets)).2) := rfl

/-- A pass is a growth. -/
theorem growth_sweep :
    (clauses : List Clause) → (sets : Sets) →
      Growth clauses sets (sweep clauses sets).1 (sweep clauses sets).2
  | [], sets => .nil sets
  | clause :: rest, sets => by
      rw [sweep_cons]
      split
      · exact (growth_sweep rest sets).mono fun c hc => List.mem_cons_of_mem _ hc
      · next hne =>
          refine .cons List.mem_cons_self (fun h => hne (Clause.after_eq_current_iff.mpr h)) ?_
          exact (growth_sweep rest _).mono fun c hc => List.mem_cons_of_mem _ hc

/-- A pass without enlargements shows that all clauses hold. -/
theorem holds_of_sweep_nil {sets : Sets} :
    (clauses : List Clause) → (sweep clauses sets).1 = [] → ∀ clause ∈ clauses, clause.Holds sets
  | [], _, clause, hc => absurd hc List.not_mem_nil
  | first :: rest, h, clause, hc => by
      rw [sweep_cons] at h
      split at h
      · next heq =>
          rcases List.mem_cons.mp hc with rfl | hc
          · exact Clause.after_eq_current_iff.mp heq
          · exact holds_of_sweep_nil rest h clause hc
      · exact absurd h (List.cons_ne_nil _ _)

/-- A pass through clauses that hold changes nothing. -/
theorem sweep_of_holds {sets : Sets} :
    (clauses : List Clause) → (∀ clause ∈ clauses, clause.Holds sets) →
      sweep clauses sets = ([], sets)
  | [], _ => rfl
  | clause :: rest, h => by
      obtain ⟨hclause, hrest⟩ := List.forall_mem_cons.mp h
      rw [sweep_cons, if_pos (Clause.after_eq_current_iff.mpr hclause), sweep_of_holds rest hrest]

/-! ## Repeated passes -/

/-- Passes are repeated unless the last one changed nothing. -/
theorem saturate_succ (clauses : List Clause) (bound : Nat) (sets : Sets) :
    saturate clauses (bound + 1) sets =
      if (sweep clauses sets).1 = [] then ⟨[], sets, 1⟩
      else
        let later := saturate clauses bound (sweep clauses sets).2
        ⟨(sweep clauses sets).1 ++ later.updates, later.sets, later.passes + 1⟩ := by
  rw [saturate]
  match h : sweep clauses sets with
  | ([], after) => rw [if_pos rfl]
  | (update :: updates, after) => rw [if_neg (List.cons_ne_nil _ _)]

/-- Repeated passes are a growth. -/
theorem growth_saturate (clauses : List Clause) :
    (bound : Nat) → (sets : Sets) →
      Growth clauses sets (saturate clauses bound sets).updates (saturate clauses bound sets).sets
  | 0, sets => .nil sets
  | bound + 1, sets => by
      rw [saturate_succ]
      split
      · exact .nil sets
      · exact (growth_sweep clauses sets).append (growth_saturate clauses bound _)

/-- Passes that are repeated until one changes nothing, without a bound on their number: the
enlargements, the sets after the last pass, and the number of passes. -/
inductive Settles (clauses : List Clause) : Sets → List Update → Sets → Nat → Prop
  /-- The first pass changes nothing. -/
  | done {sets : Sets} (hnil : (sweep clauses sets).1 = []) : Settles clauses sets [] sets 1
  /-- The first pass enlarges a set, and others come after it. -/
  | again {sets final : Sets} {updates : List Update} {passes : Nat}
      (hne : (sweep clauses sets).1 ≠ [])
      (later : Settles clauses (sweep clauses sets).2 updates final passes) :
      Settles clauses sets ((sweep clauses sets).1 ++ updates) final (passes + 1)

/-- If every growth is shorter than the permitted number of passes, the passes end because one of
them changes nothing. -/
theorem settles_saturate (clauses : List Clause) :
    (bound : Nat) → (sets : Sets) →
      (∀ updates final, Growth clauses sets updates final → updates.length < bound) →
        Settles clauses sets (saturate clauses bound sets).updates
          (saturate clauses bound sets).sets (saturate clauses bound sets).passes
  | 0, sets, hshort => absurd (hshort [] sets (.nil sets)) (Nat.not_lt_zero _)
  | bound + 1, sets, hshort => by
      rw [saturate_succ]
      split
      · next hnil => exact .done hnil
      · next hne =>
          refine .again hne (settles_saturate clauses bound _ fun updates final h => ?_)
          have hlt := hshort _ _ ((growth_sweep clauses sets).append h)
          have hpos := List.length_pos_iff.mpr hne
          rw [List.length_append] at hlt
          omega

namespace Settles

variable {clauses : List Clause} {sets final : Sets} {updates : List Update} {passes : Nat}

/-- Every pass but the last enlarges a set. -/
theorem passes_le (h : Settles clauses sets updates final passes) :
    passes ≤ 1 + updates.length := by
  induction h with
  | done => exact Nat.le_refl _
  | again hne _ ih =>
      have hpos := List.length_pos_iff.mpr hne
      rw [List.length_append]
      omega

/-- All clauses hold at the end. -/
theorem holds (h : Settles clauses sets updates final passes) :
    ∀ clause ∈ clauses, clause.Holds final := by
  induction h with
  | done hnil => exact holds_of_sweep_nil clauses hnil
  | again _ _ ih => exact ih

end Settles

/-- If every growth is shorter than the permitted number of passes, all clauses hold at the end. -/
theorem saturate_holds (clauses : List Clause) (bound : Nat) (sets : Sets)
    (hshort : ∀ updates final, Growth clauses sets updates final → updates.length < bound) :
    ∀ clause ∈ clauses, clause.Holds (saturate clauses bound sets).sets :=
  (settles_saturate clauses bound sets hshort).holds

end TableParsing.FirstFollow
