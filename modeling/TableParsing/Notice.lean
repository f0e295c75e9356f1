import TableParsing.Collection
import TableParsing.Grammar.Reader
import TableParsing.Simulation
import TableParsing.Table.Predictive

/-!
# Notices

What is reported while grammars are read, sets and tables are built, and machines are run. A
notice says nothing that the result does not show, so the notices of an operation are computed
from its result.
-/

namespace TableParsing

/-- How important a notice is. -/
inductive Severity where
  | debug
  | info
  | warning
deriving DecidableEq, Repr

/-- Which part of the library a notice is about. -/
inductive Topic where
  /-- Grammars, sets, items and tables. -/
  | analysis
  /-- Runs of a machine. -/
  | simulation
deriving DecidableEq, Repr

/-- Something that is reported. -/
inductive Notice where
  /-- A line of a grammar is not a rule. -/
  | malformedLine (number : Nat) (text : String)
  /-- A line of a grammar uses the end marker. -/
  | reservedLine (number : Nat) (text : String)
  /-- A grammar has been read. -/
  | grammarRead (productions nonTerminals terminals : Nat)
  /-- FIRST and FOLLOW sets are being computed. -/
  | setsBegun (productions : Nat)
  /-- FIRST and FOLLOW sets have been computed. -/
  | setsDone (snapshots : Nat)
  /-- A cell of a predictive table has been overwritten. -/
  | overwritten (overwrite : Overwrite)
  /-- States are being built. -/
  | collectionBegun (algorithm : Algorithm)
  /-- States have been built. -/
  | collectionDone (algorithm : Algorithm) (states snapshots : Nat)
  /-- A shift-reduce table has cells with more than one action. -/
  | conflictsFound (algorithm : Algorithm) (count : Nat)
  /-- A machine has been run. -/
  | runDone (algorithm : Algorithm) (outcome : Outcome) (steps : Nat)

namespace Notice

/-- How important the notice is. -/
def severity : Notice → Severity
  | .malformedLine .. | .reservedLine .. | .overwritten _ => .warning
  | .runDone .. => .debug
  | _ => .info

/-- What the notice is about. -/
def topic : Notice → Topic
  | .runDone .. => .simulation
  | _ => .analysis

/-- The wording of the notice. -/
def message : Notice → String
  | .malformedLine number text =>
    "Skipping malformed grammar line " ++ toString number ++ ": " ++ Text.quoted text
  | .reservedLine number text =>
    "Skipping grammar line " ++ toString number ++ " that uses the end-marker " ++
      Text.quoted endMarker ++ ": " ++ Text.quoted text
  | .grammarRead productions nonTerminals terminals =>
    "Parsed grammar: " ++ toString productions ++ " productions, " ++ toString nonTerminals ++
      " non-terminals, " ++ toString terminals ++ " terminals"
  | .setsBegun productions => "[First/Follow] START: " ++ toString productions ++ " productions"
  | .setsDone snapshots => "[First/Follow] END: " ++ toString snapshots ++ " snapshots recorded"
  | .overwritten o => "LL(1) conflict, last production wins: " ++ o.text
  | .collectionBegun algorithm =>
    "[" ++ algorithm.name ++ "] START: building canonical collection"
  | .collectionDone algorithm states snapshots =>
    "[" ++ algorithm.name ++ "] END: " ++ toString states ++ " states, " ++ toString snapshots ++
      " snapshots"
  | .conflictsFound algorithm count =>
    "[" ++ algorithm.name ++ "] table has " ++ toString count ++ " conflict cell(s)"
  | .runDone algorithm outcome steps =>
    algorithm.name ++ " simulation finished with " ++ outcome.name ++ " after " ++
      toString steps ++ " step(s)"

/-- The notices on lines that are skipped; the first line has the given number. -/
def ofLines (number : Nat) : List Grammar.Line → List Notice
  | [] => []
  | .malformed text :: rest => .malformedLine number text :: ofLines (number + 1) rest
  | .reserved text :: rest => .reservedLine number text :: ofLines (number + 1) rest
  | _ :: rest => ofLines (number + 1) rest

/-- The notices on reading a grammar. -/
def ofReading (text : String) : List Notice :=
  ofLines 1 (Grammar.readLines text) ++
    match Grammar.read text with
    | .ok g => [.grammarRead g.productions.length g.nonTerminals.length g.terminals.length]
    | .error _ => []

/-- The notices on computing FIRST and FOLLOW sets. -/
def ofSets (g : Grammar) (sets : FirstFollow) : List Notice :=
  [.setsBegun g.productions.length, .setsDone sets.history.length]

/-- The notices on building a predictive table. -/
def ofPredictive (table : Table) : List Notice := table.overwrites.map .overwritten

/-- The notice on the conflicts of a shift-reduce table. -/
def ofConflicts (table : Table) : List Notice :=
  if table.conflicts.isEmpty then []
  else [.conflictsFound table.algorithm table.conflicts.length]

/-- The notices on building states and their table. -/
def ofCollection (collection : Collection) : List Notice :=
  [.collectionBegun collection.algorithm,
   .collectionDone collection.algorithm collection.states.length collection.history.length] ++
    ofConflicts collection.table

/-- The notice on a run. -/
def ofRun (result : ParseResult) : List Notice :=
  [.runDone result.algorithm result.outcome result.stepCount]

end Notice

end TableParsing
