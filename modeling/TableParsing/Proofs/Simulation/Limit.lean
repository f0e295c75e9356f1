import TableParsing.Proofs.Machine.Limit
import TableParsing.Proofs.Predictive.Step
import TableParsing.Proofs.ShiftReduce.Step
import TableParsing.Proofs.Table.Predictive

/-!
# The limit only cuts a run short

The results of the same run with two limits (`ParseResult.IsCut`). If the run with the smaller limit
ends by itself, both results are the same. Otherwise it shows the start and one record for each
permitted step, which are the first records of the other result, and a record of the limit that
repeats the last of them (`parse_isCut`). It does not matter what the table is or which symbol is put
behind the tokens, and a negative limit permits as few steps as the limit zero.
-/

namespace TableParsing

/-- A result with a limit on the number of steps is that of a run cut short at the limit, or that of
the whole run. -/
structure ParseResult.IsCut (limit : Nat) (cut whole : ParseResult) : Prop where
  /-- A run that ends by itself is whole. -/
  whole_eq : cut.outcome ≠ .stepLimit → whole = cut
  /-- A run that does not shows the first records of the whole one, and that of the limit, which
  repeats what the last of them shows. -/
  exists_split : cut.outcome = .stepLimit → ∃ first last final,
    cut.trace = first ++ [last, final] ∧ first.length = limit ∧
    final = { last with move := .stepLimit } ∧ final.move.text = "Error: Step limit reached" ∧
    first ++ [last] <+: whole.trace
  /-- There are at most two more records than permitted steps. -/
  length_le : cut.trace.length ≤ limit + 2

/-- A result that shows a run is cut short like the run. -/
theorem ParseResult.isCut_of_trace {σ : Type} {step : σ → Moment σ} {c : σ}
    (hstep : ∀ c, (step c).move.outcome? ≠ some .stepLimit) {shown : Moment σ → TraceStep}
    (hshown : ∀ moment move, shown ⟨move, moment.config⟩ = { shown moment with move := move })
    {n m : Nat} (hle : n ≤ m) {cut whole : ParseResult}
    (htrace : cut.trace = (Machine.trace step n c).map shown)
    (houtcome : cut.outcome = Machine.outcome (Machine.trace step n c))
    (hwhole : whole.trace = (Machine.trace step m c).map shown)
    (hsame : Machine.trace step m c = Machine.trace step n c → whole = cut) :
    IsCut n cut whole where
  whole_eq := by
    intro hne
    rw [houtcome] at hne
    exact hsame (Machine.trace_of_outcome_ne hle hne)
  exists_split := by
    intro hcut
    rw [houtcome] at hcut
    obtain ⟨before, last, hlength, hbefore, hfirst⟩ := Machine.exists_cut hstep hcut
    refine ⟨before.map shown, shown last, { shown last with move := .stepLimit }, ?_, ?_, rfl, rfl,
      ?_⟩
    · rw [htrace, hbefore, List.map_append, ← hshown]
      rfl
    · rw [List.length_map, hlength]
    · have hrecords := (hfirst m hle).map shown
      rwa [List.map_append, List.map_singleton, ← hwhole] at hrecords
  length_le := by
    rw [htrace, List.length_map]
    exact Machine.length_trace_le step n c

section machines

variable (g : Grammar) (table : Table) (tokens : List Symbol) (endSymbol : Symbol) {n m : Int}

/-- A result of the predictive machine with a larger limit. -/
theorem Predictive.isCut_of_le (hle : n ≤ m) :
    ParseResult.IsCut n.toNat (Predictive.parse g table tokens ⟨n, endSymbol⟩)
      (Predictive.parse g table tokens ⟨m, endSymbol⟩) := by
  have hstep : ∀ c, (Predictive.step g table endSymbol c).move.outcome? ≠ some .stepLimit :=
    fun c ho => Predictive.outcome_ne_stepLimit ho rfl
  refine ParseResult.isCut_of_trace hstep (fun _ _ => rfl) (Int.toNat_le_toNat hle) rfl rfl rfl ?_
  intro hsame
  unfold Predictive.parse RunOptions.limit
  simp only
  rw [hsame]

/-- A result of the shift-reduce machine with a larger limit. -/
theorem ShiftReduce.isCut_of_le (hle : n ≤ m) :
    ParseResult.IsCut n.toNat (ShiftReduce.parse table tokens ⟨n, endSymbol⟩)
      (ShiftReduce.parse table tokens ⟨m, endSymbol⟩) := by
  have hstep : ∀ c, (ShiftReduce.step table endSymbol c).move.outcome? ≠ some .stepLimit :=
    fun c ho => ShiftReduce.outcome_ne_stepLimit ho rfl
  refine ParseResult.isCut_of_trace hstep (fun _ _ => rfl) (Int.toNat_le_toNat hle) rfl rfl rfl ?_
  intro hsame
  unfold ShiftReduce.parse RunOptions.limit
  simp only
  rw [hsame]

/-- Any table is given, a grammar, tokens, a symbol behind them and two limits. Then the result of
each machine with the smaller limit is that of the run with the larger limit cut short, or the
same. -/
theorem parse_isCut (hle : n ≤ m) :
    ParseResult.IsCut n.toNat (Predictive.parse g table tokens ⟨n, endSymbol⟩)
        (Predictive.parse g table tokens ⟨m, endSymbol⟩) ∧
      ParseResult.IsCut n.toNat (ShiftReduce.parse table tokens ⟨n, endSymbol⟩)
        (ShiftReduce.parse table tokens ⟨m, endSymbol⟩) :=
  ⟨Predictive.isCut_of_le g table tokens endSymbol hle,
    ShiftReduce.isCut_of_le table tokens endSymbol hle⟩

end machines

/-- No brackets are accepted with the second step. A limit of one cuts the run short, and from two
on the limit makes no difference. -/
theorem parse_isCut_nested :
    let table := Table.predictive .nested (FirstFollow.compute .nested)
    let result (maxSteps : Int) := Predictive.parse .nested table [] ⟨maxSteps, endMarker⟩
    (1 : Int) ≤ 2 ∧ (2 : Int) ≤ 1000 ∧ (result 1).outcome = .stepLimit ∧
      ParseResult.IsCut 1 (result 1) (result 2) ∧ (result 2).outcome = .accepted ∧
      result 1000 = result 2 := by
  intro table result
  have hle₁ : (1 : Int) ≤ 2 := by decide
  have hle₂ : (2 : Int) ≤ 1000 := by decide
  have hcut : (result 1).outcome = .stepLimit := by decide +kernel
  have haccepted : (result 2).outcome = .accepted := by decide +kernel
  have hlong := (parse_isCut .nested table [] endMarker hle₂).1
  refine ⟨hle₁, hle₂, hcut, (parse_isCut .nested table [] endMarker hle₁).1, haccepted, ?_⟩
  apply hlong.whole_eq
  rw [haccepted]
  decide

end TableParsing
