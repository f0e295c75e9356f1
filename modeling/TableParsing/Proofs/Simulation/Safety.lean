import TableParsing.Proofs.Predictive.Step
import TableParsing.Proofs.ShiftReduce.Step
import TableParsing.Proofs.Table.Predictive

/-!
# What cannot go wrong

On the table of a collection the shift-reduce machine never takes more off the stack than there is,
and after a reduction it always finds a goto; it meets an action that it cannot execute only where
the next symbol of the input is the name of a non-terminal, whose column holds gotos. The predictive
machine never meets an entry that is not a production of the non-terminal on top
(`simulate_possible`).

Nothing is asked of the input or of the symbol behind it, of conflicts or of overwritten cells: the
states on the stack are a path through the automaton whatever is read (`IsPath.step`), and all cells
of a predictive table are alike (`Table.exists_of_get?_predictive`).
-/

namespace TableParsing

open Collection FirstFollow

namespace ShiftReduce

variable {g : Grammar} {algorithm : Algorithm} {collection : Collection} {endSymbol : Symbol}
  {c : Config}

/-- An action that the machine cannot execute is a goto, in the column of a non-terminal. -/
theorem isNonTerminal_of_invalid (hbuilt : Built g algorithm collection) {a : Action}
    (hfound : found collection.table endSymbol c = some a) (hshift : ∀ next, a ≠ .shift next)
    (hreduce : ∀ p, a ≠ .reduce p) (haccept : a ≠ .accept) :
    g.isNonTerminal (c.input.headD endSymbol) = true := by
  obtain ⟨s, -, -, hentry⟩ := hbuilt.exists_rowEntry hfound
  cases hentry with
  | shift => exact absurd rfl (hshift _)
  | goto _ hn => exact hn
  | item _ hentry =>
      cases hentry with
      | accept => exact absurd rfl haccept
      | reduce => exact absurd rfl (hreduce _)

/-- How a step from a path can end a run. -/
theorem IsPath.outcome_cases (hbuilt : Built g algorithm collection) (hend : g.AvoidsEndMarker)
    (h : IsPath collection.states c.frames) {o : Outcome}
    (ho : (ShiftReduce.step collection.table endSymbol c).move.outcome? = some o) :
    o = .accepted ∨ o = .noTransition ∨ o = .invalidAction ∧
      g.isNonTerminal
        ((ShiftReduce.step collection.table endSymbol c).config.input.headD endSymbol) = true := by
  have heffect := step_effect collection.table endSymbol c
  revert heffect ho
  generalize ShiftReduce.step collection.table endSymbol c = moment
  intro ho heffect
  cases heffect with
  | shifted | reduced => cases ho
  | underflow hfound hdepth =>
      obtain ⟨-, hlength, -⟩ := h.exists_goto hbuilt hend hfound
      omega
  | gotoError hfound _ hgoto =>
      obtain ⟨-, -, -, next, hnext⟩ := h.exists_goto hbuilt hend hfound
      exact absurd hnext (hgoto next)
  | accept =>
      cases ho
      exact Or.inl rfl
  | unfinished | noTransition =>
      cases ho
      exact Or.inr (Or.inl rfl)
  | invalidAction hfound hshift hreduce haccept =>
      cases ho
      exact Or.inr (Or.inr ⟨rfl, isNonTerminal_of_invalid hbuilt hfound hshift hreduce haccept⟩)

/-- How a run on the table of a collection can end. -/
theorem parse_outcome_cases (hbuilt : Built g algorithm collection) (hend : g.AvoidsEndMarker)
    (tokens : List Symbol) (options : RunOptions) :
    let result := parse collection.table tokens options
    result.outcome = .stepLimit ∨ result.outcome = .accepted ∨ result.outcome = .noTransition ∨
      result.outcome = .invalidAction ∧
        g.isNonTerminal (result.remaining.headD options.endSymbol) = true := by
  intro result
  by_cases hlimit : result.outcome = .stepLimit
  · exact Or.inl hlimit
  · obtain ⟨n, c, hsteps, hlast, ho⟩ := Machine.exists_last_step hlimit
    have hstep : ∀ c, IsPath collection.states c.frames →
        (step collection.table options.endSymbol c).move.outcome? = none →
          IsPath collection.states (step collection.table options.endSymbol c).config.frames := by
      intro c hc _
      exact hc.step hbuilt
    have hinit : IsPath collection.states
        (Config.initial (tokens ++ [options.endSymbol])).frames := trivial
    have hpath := hsteps.inv hstep hinit
    have hremaining : result.remaining = _ := remaining_parse hlast
    rw [hremaining]
    exact Or.inr (hpath.outcome_cases hbuilt hend ho)

end ShiftReduce

namespace Predictive

variable {g : Grammar} {sets : FirstFollow} {endSymbol : Symbol} {c : Config}

/-- The machine meets no entry that it cannot use. -/
theorem outcome_ne_invalidAction :
    (step g (Table.predictive g sets) endSymbol c).move.outcome? ≠ some .invalidAction := by
  have heffect := step_effect g (Table.predictive g sets) endSymbol c
  revert heffect
  generalize Predictive.step g (Table.predictive g sets) endSymbol c = moment
  intro heffect ho
  cases heffect with
  | invalidEntry _ _ _ hcell hinvalid =>
      obtain ⟨p, -, -, hrow, rfl⟩ := Table.exists_of_get?_predictive hcell
      exact hinvalid p rfl (Row.nonTerminal.inj hrow).symm
  | accept | unfinished | matched | mismatch | noEntry | expanded => cases ho

/-- A run on a predictive table does not end with an entry that the machine cannot use. -/
theorem parse_outcome_ne (tokens : List Symbol) (options : RunOptions) :
    (parse g (Table.predictive g sets) tokens options).outcome ≠ .invalidAction := by
  intro h
  have hlimit : (parse g (Table.predictive g sets) tokens options).outcome ≠ .stepLimit := by
    simp [h]
  obtain ⟨n, c, -, -, ho⟩ := Machine.exists_last_step hlimit
  exact outcome_ne_invalidAction (ho.trans (congrArg some h))

end Predictive

/-- A grammar is read from a text. Then the shift-reduce machine on the table of a collection, with
or without conflicts, never ends because its stack is too short or because there is no goto, and
with an action that it cannot execute only if the next symbol of the input is a non-terminal; and
the predictive machine never ends with an entry that it cannot use. This holds for all tokens,
whatever symbol is put behind them, and all limits. -/
theorem simulate_possible {g : Grammar} {text : String} (hread : Grammar.read text = .ok g) :
    (∀ algorithm ∈ Algorithm.shiftReduce, ∃ collection,
      Collection.build g (compute g) algorithm = .ok collection ∧
      ∀ (tokens : List Symbol) (options : RunOptions),
        let result := ShiftReduce.parse collection.table tokens options
        result.outcome ≠ .underflow ∧ result.outcome ≠ .gotoError ∧
        (result.outcome = .invalidAction →
          g.isNonTerminal (result.remaining.headD options.endSymbol) = true)) ∧
    ∀ (tokens : List Symbol) (options : RunOptions),
      (Predictive.parse g (Table.predictive g (compute g)) tokens options).outcome ≠
        .invalidAction := by
  have hend := Grammar.avoidsEndMarker_of_read hread
  constructor
  · intro algorithm halgorithm
    obtain ⟨collection, hbuild, hbuilt⟩ := exists_built g halgorithm
    refine ⟨collection, hbuild, fun tokens options => ?_⟩
    rcases ShiftReduce.parse_outcome_cases hbuilt hend tokens options with ho | ho | ho | ⟨ho, hn⟩
    · simp [ho]
    · simp [ho]
    · simp [ho]
    · exact ⟨by simp [ho], by simp [ho], fun _ => hn⟩
  · intro tokens options
    exact Predictive.parse_outcome_ne tokens options

/-- A non-terminal among the tokens of a sum is met by a goto. -/
theorem simulate_possible_sums :
    ∃ collection, Collection.build .sums (compute .sums) .lr0 = .ok collection ∧
      let result := ShiftReduce.parse collection.table ["E", "+"] .standard
      result.outcome = .invalidAction ∧
        Grammar.sums.isNonTerminal (result.remaining.headD endMarker) = true := by
  obtain ⟨hruns, -⟩ := simulate_possible Grammar.read_sums
  obtain ⟨collection, hbuild, hresult⟩ := hruns .lr0 (by decide)
  have hrun : (Collection.build .sums (compute .sums) .lr0).toOption.map (fun c =>
      (ShiftReduce.parse c.table ["E", "+"] .standard).outcome) = some .invalidAction := by
    decide +kernel
  rw [hbuild] at hrun
  have ho := Option.some.inj hrun
  exact ⟨collection, hbuild, ho, (hresult _ _).2.2 ho⟩

end TableParsing
