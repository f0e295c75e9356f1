import TableParsing.Action
import TableParsing.Tree

/-!
# Stack machines

What the two parsing machines have in common: what can happen in a step, how a run ends, and how
a step function is run. A step names what it did (`Move`) and gives the configuration after it. A
move ends the run iff it has an outcome, so the outcome of a run is that of its last move.

A run takes at most a given number of steps. What it records up to then does not depend on the
number (`run_succ_of_none`), and a run that is cut short ends with a record of the limit.
-/

namespace TableParsing

/-- How a run ends. -/
inductive Outcome where
  /-- The input is a sentence. -/
  | accepted
  /-- A terminal other than the one in the input is due. -/
  | terminalMismatch
  /-- The predictive table has no production for the input. -/
  | noEntry
  /-- The shift-reduce table has no action for the input. -/
  | noTransition
  /-- No goto leads on from a reduction. -/
  | gotoError
  /-- The table has an action that the machine cannot execute. -/
  | invalidAction
  /-- A reduction needs more symbols than are on the stack. -/
  | underflow
  /-- The permitted number of steps has been made. -/
  | stepLimit
deriving DecidableEq, Repr

namespace Outcome

/-- All outcomes. -/
def all : List Outcome :=
  [.accepted, .terminalMismatch, .noEntry, .noTransition, .gotoError, .invalidAction, .underflow,
    .stepLimit]

/-- The name of an outcome. -/
def name : Outcome → String
  | .accepted => "accepted"
  | .terminalMismatch => "terminal_mismatch"
  | .noEntry => "no_table_entry"
  | .noTransition => "no_transition"
  | .gotoError => "goto_error"
  | .invalidAction => "invalid_action"
  | .underflow => "stack_underflow"
  | .stepLimit => "step_limit"

end Outcome

/-- What happens in a step. -/
inductive Move where
  /-- The run begins. -/
  | start
  /-- A terminal is matched with the input. -/
  | matched (symbol : Symbol)
  /-- A non-terminal is expanded. -/
  | expanded (production : Production)
  /-- A symbol of the input is read. -/
  | shifted (symbol : Symbol) (state : Int)
  /-- A body on the stack is replaced by its left-hand side. -/
  | reduced (production : Production)
  /-- The input is accepted. -/
  | accept
  /-- The due terminal is not the one in the input. -/
  | terminalMismatch
  /-- The non-terminal has no production for the input. -/
  | noEntry
  /-- The cell holds something else than a production of the non-terminal. -/
  | invalidEntry (entry : Action)
  /-- The state has no action for the input. -/
  | noTransition
  /-- The body is longer than the stack. -/
  | underflow (production : Production)
  /-- The state below the body has no goto. -/
  | gotoError (production : Production)
  /-- The cell holds an action that is not for the input. -/
  | invalidAction
  /-- The permitted number of steps has been made. -/
  | stepLimit

namespace Move

/-- The outcome of a run that ends with this move; moves that do not end it have none. -/
def outcome? : Move → Option Outcome
  | .start | .matched _ | .expanded _ | .shifted .. | .reduced _ => none
  | .accept => some .accepted
  | .terminalMismatch => some .terminalMismatch
  | .noEntry => some .noEntry
  | .invalidEntry _ => some .invalidAction
  | .noTransition => some .noTransition
  | .underflow _ => some .underflow
  | .gotoError _ => some .gotoError
  | .invalidAction => some .invalidAction
  | .stepLimit => some .stepLimit

/-- A move as a text. -/
def text : Move → String
  | .start => "Start"
  | .matched s => "Match " ++ s
  | .expanded p => "Output " ++ p.text
  | .shifted s n => "Shift " ++ s ++ " to " ++ toString n
  | .reduced p => "Reduce " ++ p.text
  | .accept => "ACCEPT"
  | .terminalMismatch => "Error: Terminal Mismatch"
  | .noEntry => "Error: No entry in table"
  | .invalidEntry entry => "Error: Invalid table entry " ++ entry.text
  | .noTransition => "Error: No transition"
  | .underflow p => "Reduce " ++ p.text ++ " (Error: stack underflow)"
  | .gotoError p => "Reduce " ++ p.text ++ " (Error during goto)"
  | .invalidAction => "Error: Invalid action on terminal"
  | .stepLimit => "Error: Step limit reached"

end Move

/-- A move and the configuration after it. -/
structure Moment (σ : Type) where
  /-- What happened. -/
  move : Move
  /-- The configuration after it. -/
  config : σ

namespace Machine

variable {σ : Type}

/-- Runs a step function for at most a number of steps: the moments after the first one. -/
def run (step : σ → Moment σ) : (limit : Nat) → σ → List (Moment σ)
  | 0, config => [⟨.stepLimit, config⟩]
  | limit + 1, config =>
    let moment := step config
    match moment.move.outcome? with
    | some _ => [moment]
    | none => moment :: run step limit moment.config

/-- All moments of a run, from its start. -/
def trace (step : σ → Moment σ) (limit : Nat) (config : σ) : List (Moment σ) :=
  ⟨.start, config⟩ :: run step limit config

/-- The outcome of a run. -/
def outcome (moments : List (Moment σ)) : Outcome :=
  ((moments.getLast?.bind fun moment => moment.move.outcome?)).getD .stepLimit

/-! ## Lemmas -/

theorem run_succ_of_outcome (step : σ → Moment σ) (limit : Nat) (config : σ) {o : Outcome}
    (h : (step config).move.outcome? = some o) : run step (limit + 1) config = [step config] := by
  simp [run, h]

theorem run_succ_of_none (step : σ → Moment σ) (limit : Nat) (config : σ)
    (h : (step config).move.outcome? = none) :
    run step (limit + 1) config = step config :: run step limit (step config).config := by
  simp [run, h]

theorem run_ne_nil (step : σ → Moment σ) (limit : Nat) (config : σ) :
    run step limit config ≠ [] := by
  cases limit with
  | zero => simp [run]
  | succ limit =>
    cases h : (step config).move.outcome? with
    | some o => simp [run_succ_of_outcome step limit config h]
    | none => simp [run_succ_of_none step limit config h]

end Machine

end TableParsing
