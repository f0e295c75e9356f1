import TableParsing.Proofs.Machine.Follow

/-!
# Another symbol for the end marker

Two simulated parses are compared, one with the end marker of the tables behind the tokens and one
with another symbol in its place. They are the same up to writing that symbol for the end marker, or
the second is cut where the first follows an entry of the table with only the end marker left: there
it finds no entry and fails (`AgreesUpToEnd`).

This is shown for any two machines one of which follows the other, and for whatever is shown of
them, as long as it is shown alike (`View.agreesUpToEnd`).
-/

namespace TableParsing

/-! ## What changes -/

namespace Move

/-- Whether a move follows an entry of the table. The predictive machine accepts without one. -/
def usesEntry (algorithm : Algorithm) : Move → Bool
  | .expanded _ | .invalidEntry _ | .shifted .. | .reduced _ | .underflow _ | .gotoError _
  | .invalidAction => true
  | .accept => algorithm ≠ .ll1
  | .start | .matched _ | .terminalMismatch | .noEntry | .noTransition | .stepLimit => false

/-- The move for want of an entry. -/
def missing : Algorithm → Move
  | .ll1 => .noEntry
  | .lr0 | .slr1 | .lr1 => .noTransition

end Move

/-- The outcome for want of an entry. -/
def Outcome.missing : Algorithm → Outcome
  | .ll1 => .noEntry
  | .lr0 | .slr1 | .lr1 => .noTransition

/-- For want of an entry the run ends. -/
theorem Move.outcome?_missing (algorithm : Algorithm) :
    (Move.missing algorithm).outcome? = some (Outcome.missing algorithm) := by
  cases algorithm <;> rfl

/-- A shift-reduce machine has one move for want of an entry. -/
theorem Move.missing_of_ne_ll1 {algorithm : Algorithm} (h : algorithm ≠ .ll1) :
    Move.missing algorithm = .noTransition := by
  cases algorithm with
  | ll1 => exact absurd rfl h
  | lr0 | slr1 | lr1 => rfl

/-- A symbol in the place of the end marker. -/
def relabel (endSymbol s : Symbol) : Symbol := if s = endMarker then endSymbol else s

namespace TraceStep

/-- The record with a symbol in the place of the end marker. -/
def relabel (endSymbol : Symbol) (step : TraceStep) : TraceStep :=
  { step with
    stack := step.stack.map (TableParsing.relabel endSymbol)
    input := step.input.map (TableParsing.relabel endSymbol)
    symbols := step.symbols.map (TableParsing.relabel endSymbol) }

/-- The record with another move. -/
def withMove (move : Move) (step : TraceStep) : TraceStep := { step with move := move }

/-- Whether the move of a record follows an entry of the table and only the end marker was left
before it. -/
def usesEnd (algorithm : Algorithm) (last next : TraceStep) : Bool :=
  last.input = [endMarker] && next.move.usesEntry algorithm

end TraceStep

namespace ParseResult

/-- The result with a symbol in the place of the end marker. -/
def relabel (endSymbol : Symbol) (result : ParseResult) : ParseResult :=
  { result with trace := result.trace.map (TraceStep.relabel endSymbol) }

/-- A move of the run follows an entry of the table with only the end marker left. -/
def UsesEnd (result : ParseResult) : Prop :=
  ∃ pair ∈ result.trace.zip result.trace.tail,
    TraceStep.usesEnd result.algorithm pair.1 pair.2 = true

instance (result : ParseResult) : Decidable result.UsesEnd :=
  inferInstanceAs (Decidable (∃ pair ∈ result.trace.zip result.trace.tail, _))

/-- The result of a run that finds no entry with only the end marker left. -/
def cutAtEnd (result : ParseResult) : ParseResult :=
  { result with
    outcome := Outcome.missing result.algorithm
    trace := cutAt (TraceStep.usesEnd result.algorithm)
      (TraceStep.withMove (Move.missing result.algorithm)) result.trace
    tree := none }

end ParseResult

/-- What becomes of a result with a symbol in the place of the end marker. -/
structure AgreesUpToEnd (endSymbol : Symbol) (result other : ParseResult) : Prop where
  /-- Nothing else changes if no entry is used at the end of the input. -/
  eq_relabel : endSymbol = endMarker ∨ ¬ result.UsesEnd → other = result.relabel endSymbol
  /-- Otherwise the run fails where an entry was used for the first time. -/
  eq_relabel_cutAtEnd : endSymbol ≠ endMarker → result.UsesEnd →
    other = result.cutAtEnd.relabel endSymbol

/-- The end marker in its own place. -/
@[simp] theorem relabel_endMarker (s : Symbol) : relabel endMarker s = s := by
  unfold relabel
  split
  · next h => exact h.symm
  · rfl

/-- Other symbols than the end marker are kept. -/
theorem relabel_of_ne (endSymbol : Symbol) {s : Symbol} (h : s ≠ endMarker) :
    relabel endSymbol s = s := if_neg h

/-- A result agrees with itself. -/
theorem AgreesUpToEnd.refl (result : ParseResult) : AgreesUpToEnd endMarker result result where
  eq_relabel _ := by
    have hid : relabel endMarker = id := funext relabel_endMarker
    have hsteps : TraceStep.relabel endMarker = id := by
      funext step
      simp only [TraceStep.relabel, hid, List.map_id]
      rfl
    rw [ParseResult.relabel, hsteps, List.map_id]
  eq_relabel_cutAtEnd hne := absurd rfl hne

/-! ## The rest of the input -/

/-- An input that ends with the end marker, before which neither it nor the symbol in its place
occurs. -/
inductive FreshInput (endSymbol : Symbol) : List Symbol → Prop
  | last : FreshInput endSymbol [endMarker]
  | before {s : Symbol} {rest : List Symbol} (hmarker : s ≠ endMarker) (hs : s ≠ endSymbol)
      (hrest : FreshInput endSymbol rest) : FreshInput endSymbol (s :: rest)

section tokens

variable {endSymbol : Symbol} {tokens : List Symbol}

/-- Tokens with the end marker behind them are such an input. -/
theorem FreshInput.of_tokens (hmarker : endMarker ∉ tokens) (hs : endSymbol ∉ tokens) :
    FreshInput endSymbol (tokens ++ [endMarker]) := by
  induction tokens with
  | nil => exact .last
  | cons t tokens ih =>
      rw [List.mem_cons, not_or] at hmarker hs
      exact .before (Ne.symm hmarker.1) (Ne.symm hs.1) (ih hmarker.2 hs.2)

/-- Before the end marker has been read, the rest is such an input. -/
theorem FreshInput.tail {input : List Symbol} (h : FreshInput endSymbol input)
    (hcurrent : input.headD endMarker ≠ endMarker) : FreshInput endSymbol input.tail := by
  cases h with
  | last => exact absurd rfl hcurrent
  | before _ _ hrest => exact hrest

/-- Nothing is left before the end marker when it comes next. -/
theorem FreshInput.eq_of_headD {input : List Symbol} (h : FreshInput endSymbol input)
    (hcurrent : input.headD endMarker = endMarker) : input = [endMarker] := by
  cases h with
  | last => rfl
  | before hmarker => exact absurd hcurrent hmarker

/-- Symbols other than the end marker are kept. -/
theorem map_relabel_of_not_mem {symbols : List Symbol} (h : endMarker ∉ symbols) :
    symbols.map (relabel endSymbol) = symbols := by
  rw [List.map_congr_left fun s hs => relabel_of_ne endSymbol (fun he => h (he ▸ hs)), List.map_id']

/-- The next symbol is the one that is in the place of the next symbol. -/
theorem headD_map_relabel (endSymbol : Symbol) (input : List Symbol) :
    (input.map (relabel endSymbol)).headD endSymbol =
      relabel endSymbol (input.headD endMarker) := by
  cases input <;> rfl

/-- With the symbol in the place of the end marker it comes behind the tokens. -/
theorem map_relabel_tokens (h : endMarker ∉ tokens) :
    (tokens ++ [endMarker]).map (relabel endSymbol) = tokens ++ [endSymbol] := by
  rw [List.map_append, map_relabel_of_not_mem h]
  rfl

end tokens

/-! ## What is shown of a machine -/

namespace Machine

variable {σ : Type}

/-- What is shown of the configurations of a machine. -/
structure View (σ : Type) where
  /-- The stack from its bottom. -/
  stack : σ → List String
  /-- The rest of the input. -/
  input : σ → List Symbol
  /-- The symbols on the stack, if these are shown apart from it. -/
  symbols : σ → List Symbol
  /-- The trees. -/
  trees : σ → List Tree
  /-- The tree that is complete when the input is accepted. -/
  tree : σ → Option Tree

namespace View

/-- What is shown of a moment. -/
def shown (view : View σ) (moment : Moment σ) : TraceStep :=
  ⟨moment.move, view.stack moment.config, view.input moment.config, view.symbols moment.config,
    view.trees moment.config⟩

/-- What is shown of a run. -/
def result (view : View σ) (algorithm : Algorithm) (start : σ) (moments : List (Moment σ)) :
    ParseResult :=
  { algorithm := algorithm
    outcome := outcome moments
    trace := moments.map view.shown
    tree := if outcome moments = .accepted then
      view.tree (lastMoment ⟨.start, start⟩ moments).config else none }

/-- Whether a move follows an entry in the column of the end marker. -/
def usesEnd (view : View σ) (algorithm : Algorithm) (c : σ) (move : Move) : Bool :=
  view.input c = [endMarker] && move.usesEntry algorithm

/-- With only the end marker left, every entry is one of its column. -/
theorem usesEnd_of_input {view : View σ} {c : σ} (h : view.input c = [endMarker])
    (algorithm : Algorithm) (move : Move) :
    view.usesEnd algorithm c move = move.usesEntry algorithm := by
  rw [usesEnd, h, decide_eq_true rfl, Bool.true_and]

/-- With more left no entry is one of that column. -/
theorem usesEnd_of_input_ne {view : View σ} {c : σ} (h : view.input c ≠ [endMarker])
    (algorithm : Algorithm) (move : Move) : view.usesEnd algorithm c move = false := by
  rw [usesEnd, decide_eq_false h, Bool.false_and]

/-- Whether the end is used is told by the moments. -/
theorem usesEnd_result (view : View σ) (algorithm : Algorithm) (start : σ)
    (moments : List (Moment σ)) :
    (view.result algorithm start moments).UsesEnd ↔
      ∃ pair ∈ moments.zip moments.tail,
        view.usesEnd algorithm pair.1.config pair.2.move = true := by
  unfold ParseResult.UsesEnd result
  simp only
  rw [← List.map_tail, List.zip_map]
  simp only [List.mem_map, exists_exists_and_eq_and]
  rfl

/-- What is shown is cut where the run is cut. -/
theorem map_shown_cut (view : View σ) (algorithm : Algorithm) (moments : List (Moment σ)) :
    (cut (view.usesEnd algorithm) (Move.missing algorithm) moments).map view.shown =
      cutAt (TraceStep.usesEnd algorithm) (TraceStep.withMove (Move.missing algorithm))
        (moments.map view.shown) := by
  apply map_cutAt
  · intro _ _
    rfl
  · intro _
    rfl

variable {view view' : View σ} {algorithm : Algorithm} {endSymbol : Symbol} {Inv : σ → Prop}
  {f : σ → σ} {step step' : σ → Moment σ}

/-- One machine follows another if it makes the same steps before the end of the input and, at the
end, stops where the other uses an entry. -/
theorem follows_of_freshInput
    (hinput : ∀ c, Inv c → FreshInput endSymbol (view.input c))
    (hinv : ∀ c, Inv c → Inv (step c).config)
    (hbefore : ∀ c, Inv c → (view.input c).headD endMarker ≠ endMarker →
      step' (f c) = (step c).map f)
    (hlast : ∀ c, Inv c → view.input c = [endMarker] →
      step' (f c) = if (step c).move.usesEntry algorithm then ⟨Move.missing algorithm, f c⟩
        else (step c).map f) :
    Follows (view.usesEnd algorithm) (Move.missing algorithm) Inv f step step' where
  outcome_missing := Option.isSome_of_eq_some (Move.outcome?_missing algorithm)
  stops_stepLimit _ := Bool.and_false _
  inv_step := hinv
  step_eq c hc := by
    by_cases hcurrent : (view.input c).headD endMarker = endMarker
    · have hend := (hinput c hc).eq_of_headD hcurrent
      rw [usesEnd_of_input hend]
      exact hlast c hc hend
    · have hmore : view.input c ≠ [endMarker] := fun h => hcurrent (by rw [h]; rfl)
      rw [usesEnd_of_input_ne hmore, if_neg Bool.false_ne_true]
      exact hbefore c hc hcurrent

/-- A machine that follows another until an entry is missing shows the same up to there. -/
theorem agreesUpToEnd
    (h : Follows (view.usesEnd algorithm) (Move.missing algorithm) Inv f step step')
    (hshown : ∀ moment, Inv moment.config →
      view'.shown (moment.map f) = (view.shown moment).relabel endSymbol)
    (htree : ∀ c, view'.tree (f c) = view.tree c) (hne : endSymbol ≠ endMarker) (limit : Nat)
    {c : σ} (hc : Inv c) :
    AgreesUpToEnd endSymbol (view.result algorithm c (trace step limit c))
      (view'.result algorithm (f c) (trace step' limit (f c))) := by
  have hall := forall_mem_trace h.inv_step limit hc
  rw [h.trace_eq limit hc]
  generalize trace step limit c = moments at hall
  have htrace : ((cut (view.usesEnd algorithm) (Move.missing algorithm) moments).map
      (Moment.map f)).map view'.shown =
        ((cut (view.usesEnd algorithm) (Move.missing algorithm) moments).map view.shown).map
          (TraceStep.relabel endSymbol) := by
    rw [List.map_map, List.map_map]
    apply List.map_congr_left
    intro moment hmem
    obtain ⟨original, horiginal, hconfig⟩ := exists_config_eq_of_mem_cut hmem
    exact hshown moment (hconfig ▸ hall original horiginal)
  constructor
  · rintro (heq | hunused)
    · exact absurd heq hne
    · have hkept : cut (view.usesEnd algorithm) (Move.missing algorithm) moments = moments :=
        cut_eq_self (mt (usesEnd_result ..).mpr hunused)
      rw [hkept] at htrace ⊢
      have hfinal : lastMoment ⟨.start, f c⟩ (moments.map (Moment.map f)) = _ :=
        lastMoment_map f ⟨.start, c⟩ moments
      unfold result ParseResult.relabel
      simp only
      rw [htrace, outcome_map, hfinal, Moment.map, htree]
  · intro _ hused
    obtain ⟨last, -, hlast⟩ : ∃ last ∈ moments,
        (cut (view.usesEnd algorithm) (Move.missing algorithm) moments).getLast? =
          some ⟨Move.missing algorithm, last.config⟩ := getLast?_cut ((usesEnd_result ..).mp hused)
    have houtcome := outcome_of_getLast? hlast (Move.outcome?_missing algorithm)
    have hfailed : Outcome.missing algorithm ≠ .accepted := by cases algorithm <;> decide
    unfold result ParseResult.cutAtEnd ParseResult.relabel
    simp only
    rw [htrace, outcome_map, houtcome, if_neg hfailed, map_shown_cut]

end View

end Machine

end TableParsing
