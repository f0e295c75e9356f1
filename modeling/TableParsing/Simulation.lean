import TableParsing.Json.Literal
import TableParsing.Machine.Predictive
import TableParsing.Machine.ShiftReduce

/-!
# Simulated parses

Running the machine that a table is for on a list of tokens, with everything that is shown of the
run: a trace with the stack, the rest of the input and the trees after every move, the outcome,
and the parse tree if the input is accepted.

Every moment of the trace has its own copy of the trees, and trees of any depth are taken to be
copied: no limit on how deeply calls may be nested is part of a run. Where an interpreter has such a
limit and a tree is copied with a call inside a call for every level, the copying can stop at a
depth of about 165 levels, and then there is no result.
-/

namespace TableParsing

/-- How a machine is run. -/
structure RunOptions where
  /-- The permitted number of steps; a negative number permits none. -/
  maxSteps : Int
  /-- The symbol put behind the tokens. -/
  endSymbol : Symbol

namespace RunOptions

/-- A thousand steps, and the end marker of the tables. -/
def standard : RunOptions := ⟨1000, endMarker⟩

/-- The permitted number of steps. -/
def limit (options : RunOptions) : Nat := options.maxSteps.toNat

end RunOptions

/-- What is shown of one moment of a run. -/
structure TraceStep where
  /-- What happened. -/
  move : Move
  /-- The stack from its bottom: symbols, or the states of a shift-reduce machine. -/
  stack : List String
  /-- The rest of the input with the end marker. -/
  input : List Symbol
  /-- The symbols on the stack of a shift-reduce machine from its bottom. -/
  symbols : List Symbol
  /-- The growing tree, or the trees on the stack. -/
  trees : List Tree

/-- A simulated parse. -/
structure ParseResult where
  /-- The algorithm whose machine was run. -/
  algorithm : Algorithm
  /-- How the run ended. -/
  outcome : Outcome
  /-- The moments of the run. -/
  trace : List TraceStep
  /-- The parse tree of an accepted input. -/
  tree : Option Tree

/-- The tokens of an input: the words of a text, or the elements of a list, each taken as a
word. -/
def tokensOf : Json → List Symbol
  | .str s => (Text.words s.toList).map String.ofList
  | .arr elements => elements.map Json.text
  | _ => []

/-- What is shown of a moment of the predictive machine. -/
def Predictive.shown (endSymbol : Symbol) (moment : Moment Predictive.Config) : TraceStep :=
  ⟨moment.move, moment.config.stack endSymbol, moment.config.input, [], [moment.config.tree]⟩

/-- What is shown of a moment of the shift-reduce machine. -/
def ShiftReduce.shown (endSymbol : Symbol) (moment : Moment ShiftReduce.Config) : TraceStep :=
  ⟨moment.move, moment.config.states.map toString, moment.config.input,
    moment.config.symbols endSymbol, moment.config.forest⟩

/-- The last element of a trace that begins with a given one. -/
def lastMoment {σ : Type} (first : Moment σ) (rest : List (Moment σ)) : Moment σ :=
  rest.getLast?.getD first

/-- Runs the predictive machine. -/
def Predictive.parse (g : Grammar) (table : Table) (tokens : List Symbol)
    (options : RunOptions) : ParseResult :=
  let start := Predictive.Config.initial g.startSymbol (tokens ++ [options.endSymbol])
  let moments :=
    Machine.trace (Predictive.step g table options.endSymbol) options.limit start
  let outcome := Machine.outcome moments
  let final := lastMoment ⟨.start, start⟩ moments
  { algorithm := .ll1
    outcome := outcome
    trace := moments.map (Predictive.shown options.endSymbol)
    tree := if outcome = .accepted then some final.config.tree else none }

/-- Runs the shift-reduce machine. -/
def ShiftReduce.parse (table : Table) (tokens : List Symbol) (options : RunOptions) :
    ParseResult :=
  let start := ShiftReduce.Config.initial (tokens ++ [options.endSymbol])
  let moments := Machine.trace (ShiftReduce.step table options.endSymbol) options.limit start
  let outcome := Machine.outcome moments
  let final := lastMoment ⟨.start, start⟩ moments
  { algorithm := table.algorithm
    outcome := outcome
    trace := moments.map (ShiftReduce.shown options.endSymbol)
    tree := if outcome = .accepted then final.config.frames.head?.map ShiftReduce.Frame.tree
      else none }

/-- Runs the machine that a table is for. -/
def simulate (g : Grammar) (table : Table) (tokens : List Symbol) (options : RunOptions) :
    ParseResult :=
  if table.algorithm = .ll1 then Predictive.parse g table tokens options
  else ShiftReduce.parse table tokens options

/-! ## What is said of a run -/

/-- A step of a trace as a text. -/
def TraceStep.text (number : Nat) (step : TraceStep) : String :=
  "Step " ++ toString number ++ ": Stack=[" ++ " ".intercalate step.stack ++ "] Input=[" ++
    " ".intercalate step.input ++ "] Action=" ++ step.move.text

namespace ParseResult

/-- Whether the input was accepted. -/
def success (result : ParseResult) : Bool := result.outcome = .accepted

/-- What went wrong, if the input was not accepted. -/
def error? (result : ParseResult) : Option String :=
  if result.success then none else result.trace.getLast?.map fun step => step.move.text

/-- The rest of the input at the end of the run. -/
def remaining (result : ParseResult) : List Symbol :=
  (result.trace.getLast?.map TraceStep.input).getD []

/-- The number of steps that the machine made. -/
def stepCount (result : ParseResult) : Nat :=
  if result.outcome = .stepLimit then result.trace.length - 2 else result.trace.length - 1

/-- The result in one sentence. -/
def text (result : ParseResult) : String :=
  match result.error? with
  | none => "Parse successful. Tree: " ++ (result.tree.map Tree.label).getD "None"
  | some error =>
    "Parse failed: " ++ error ++ " after " ++ toString (result.trace.length - 1) ++ " step(s)"

end ParseResult

end TableParsing
