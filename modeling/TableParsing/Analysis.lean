import TableParsing.Notice

/-!
# Analyses of one grammar

A grammar together with what has been computed from it. Each result is computed when it is first
asked for and kept from then on. What an operation answers does not depend on what was asked
before; what it keeps is the result that it answers.

An operation gives its answer together with the analysis after it, also where the answer is a
failure: asking for the states of an algorithm that has none still computes the sets.
-/

namespace TableParsing

/-- A grammar and what has been computed from it. -/
structure Analysis where
  /-- The grammar. -/
  grammar : Grammar
  /-- The FIRST and FOLLOW sets, if they have been asked for. -/
  sets? : Option FirstFollow
  /-- The predictive table, if it has been asked for. -/
  predictive? : Option Table
  /-- The collections that have been asked for, in that order. -/
  collections : OrderedMap Algorithm Collection
  /-- What has been reported, in order. -/
  notices : List Notice

namespace Analysis

/-- An analysis in which nothing has been computed. -/
def ofGrammar (g : Grammar) : Analysis := ⟨g, none, none, .empty, []⟩

/-- Reads a grammar for analysis. -/
def read (text : String) : Except Failure Analysis :=
  (Grammar.read text).map fun g => { ofGrammar g with notices := Notice.ofReading text }

/-- The FIRST and FOLLOW sets. -/
def sets (a : Analysis) : FirstFollow × Analysis :=
  match a.sets? with
  | some sets => (sets, a)
  | none =>
    let sets := FirstFollow.compute a.grammar
    (sets, { a with sets? := some sets, notices := a.notices ++ Notice.ofSets a.grammar sets })

/-- The predictive table. -/
def predictive (a : Analysis) : Table × Analysis :=
  match a.predictive? with
  | some table => (table, a)
  | none =>
    let known := a.sets
    let table := Table.predictive a.grammar known.1
    (table,
      { known.2 with
        predictive? := some table
        notices := known.2.notices ++ Notice.ofPredictive table })

/-- The states and the table of a shift-reduce algorithm. -/
def collection (a : Analysis) (algorithm : Algorithm) : Except Failure Collection × Analysis :=
  match a.collections.get? algorithm with
  | some collection => (.ok collection, a)
  | none =>
    let known := a.sets
    match Collection.build a.grammar known.1 algorithm with
    | .error failure => (.error failure, known.2)
    | .ok collection =>
      (.ok collection,
        { known.2 with
          collections := known.2.collections.insert algorithm collection
          notices := known.2.notices ++ Notice.ofCollection collection })

/-- The parsing table of an algorithm. -/
def table (a : Analysis) (algorithm : Algorithm) : Except Failure Table × Analysis :=
  match algorithm with
  | .ll1 =>
    let built := a.predictive
    (.ok built.1, built.2)
  | _ =>
    let built := a.collection algorithm
    (built.1.map Collection.table, built.2)

/-- A simulated parse with the table of an algorithm. -/
def simulate (a : Analysis) (algorithm : Algorithm) (tokens : List Symbol)
    (options : RunOptions) : Except Failure ParseResult × Analysis :=
  let built := a.table algorithm
  match built.1 with
  | .error failure => (.error failure, built.2)
  | .ok table =>
    let result := TableParsing.simulate a.grammar table tokens options
    (.ok result, { built.2 with notices := built.2.notices ++ Notice.ofRun result })

/-- The states and the tables of several shift-reduce algorithms, up to the first failure. -/
def collectionsOf (a : Analysis) : List Algorithm → Except Failure (List Collection) × Analysis
  | [] => (.ok [], a)
  | algorithm :: rest =>
    let built := a.collection algorithm
    match built.1 with
    | .error failure => (.error failure, built.2)
    | .ok collection =>
      let others := built.2.collectionsOf rest
      (others.1.map fun collections => collection :: collections, others.2)

/-! ## Questions by name -/

/-- Something that is asked of an analysis. Algorithms are asked for by name. -/
inductive Query where
  /-- The grammar. -/
  | grammar
  /-- The FIRST and FOLLOW sets. -/
  | sets
  /-- The predictive table. -/
  | predictive
  /-- The states of a shift-reduce algorithm. -/
  | collection (algorithm : Json)
  /-- The table of an algorithm. -/
  | table (algorithm : Json)
  /-- A simulated parse. -/
  | simulate (algorithm : Json) (tokens : List Symbol) (options : RunOptions)
  /-- Everything that can be computed from the grammar. -/
  | everything

/-- An answer to a question. -/
inductive Answer where
  | grammar (g : Grammar)
  | sets (sets : FirstFollow)
  | predictive (table : Table)
  | collection (collection : Collection)
  | table (table : Table)
  | result (result : ParseResult)
  | everything (g : Grammar) (sets : FirstFollow) (predictive : Table)
      (collections : List Collection)

/-- Answers a question. A name that is not that of an algorithm is rejected before anything is
computed. -/
def answer (a : Analysis) : Query → Except Failure Answer × Analysis
  | .grammar => (.ok (.grammar a.grammar), a)
  | .sets =>
    let built := a.sets
    (.ok (.sets built.1), built.2)
  | .predictive =>
    let built := a.predictive
    (.ok (.predictive built.1), built.2)
  | .collection name =>
    match Algorithm.resolve name with
    | .error failure => (.error failure, a)
    | .ok algorithm =>
      let built := a.collection algorithm
      (built.1.map .collection, built.2)
  | .table name =>
    match Algorithm.resolve name with
    | .error failure => (.error failure, a)
    | .ok algorithm =>
      let built := a.table algorithm
      (built.1.map .table, built.2)
  | .simulate name tokens options =>
    match Algorithm.resolve name with
    | .error failure => (.error failure, a)
    | .ok algorithm =>
      let built := a.simulate algorithm tokens options
      (built.1.map .result, built.2)
  | .everything =>
    let sets := a.sets
    let predictive := sets.2.predictive
    let collections := predictive.2.collectionsOf Algorithm.shiftReduce
    (collections.1.map fun built => .everything a.grammar sets.1 predictive.1 built,
      collections.2)

end Analysis

end TableParsing
