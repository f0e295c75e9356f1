import TableParsing.FirstFollow.Basic
import TableParsing.History

/-!
# Computing FIRST and FOLLOW

The sets grow until they satisfy every clause. A pass (`sweep`) goes through the clauses in order
and enlarges the set of each one that fails; a set that has grown is seen by the clauses after it.
Passes are repeated (`saturate`) until one changes nothing, first for the FIRST sets and then for
the FOLLOW sets. Every enlargement is kept, so that the computation can be shown step by step.

A pass that is not the last enlarges a set, and each of the sets has at most one member more than
there are terminals; so there are at most as many such passes as non-terminals times possible
members, which is the bound that `compute` gives to `saturate`.
-/

namespace TableParsing

namespace FirstFollow

/-- A clause that has enlarged a set, and the sets after it. -/
structure Update where
  /-- The clause that was not satisfied. -/
  clause : Clause
  /-- The sets after it has been. -/
  sets : Sets

/-- One pass through the clauses: the enlargements in order, and the sets after the pass. -/
def sweep : List Clause → Sets → List Update × Sets
  | [], sets => ([], sets)
  | clause :: rest, sets =>
    let before := clause.current sets
    let after := before ∪ clause.contribution sets
    if after = before then sweep rest sets
    else
      let enlarged := clause.assign sets after
      let pass := sweep rest enlarged
      (⟨clause, enlarged⟩ :: pass.1, pass.2)

/-- Passes up to the first one that changes nothing. -/
structure Saturation where
  /-- The enlargements of all passes. -/
  updates : List Update
  /-- The sets after the last pass. -/
  sets : Sets
  /-- The number of passes, with the one that changed nothing. -/
  passes : Nat

/-- Repeats passes until one changes nothing, at most as often as the bound says. -/
def saturate (clauses : List Clause) : (bound : Nat) → Sets → Saturation
  | 0, sets => ⟨[], sets, 0⟩
  | bound + 1, sets =>
    match sweep clauses sets with
    | ([], _) => ⟨[], sets, 1⟩
    | (update :: updates, after) =>
      let later := saturate clauses bound after
      ⟨update :: updates ++ later.updates, later.sets, later.passes + 1⟩

/-- One more than the number of members that the sets of a grammar can have together. -/
def passBound (g : Grammar) : Nat := g.nonTerminals.length * (g.terminals.length + 1) + 1

/-- An event of the computation. -/
inductive Event where
  /-- The sets have their starting values. -/
  | initialised (start : Symbol)
  /-- A clause has enlarged the set of its symbol. -/
  | updated (clause : Clause)
  /-- A pass has changed no FIRST set. -/
  | firstConverged
  /-- A pass has changed no FOLLOW set. -/
  | followConverged

/-- How an event is presented. -/
def Event.caption : Event → Caption
  | .initialised start =>
    ⟨"Initialized sets. First sets empty for NTs. Follow(Start) = \x7b$\x7d.", some start, none,
      none⟩
  | .updated (.first p) =>
    ⟨"Updated First(" ++ p.lhs ++ ") using rule " ++ p.text, some p.lhs, none, none⟩
  | .updated (.follow p s _) =>
    ⟨"Updated Follow(" ++ s ++ ") from rule context in " ++ p.text, some s, none, none⟩
  | .firstConverged => ⟨"First sets computation converged.", none, none, none⟩
  | .followConverged => ⟨"Follow sets computation converged. Finished.", none, none, none⟩

end FirstFollow

/-- The FIRST and FOLLOW sets of a grammar and how they were found. -/
structure FirstFollow where
  /-- The FIRST sets: of the non-terminals, the terminals and the empty marker. -/
  first : FirstFollow.SetMap
  /-- The FOLLOW sets of the non-terminals. -/
  follow : FirstFollow.SetMap
  /-- The computation step by step. -/
  history : History FirstFollow.Event FirstFollow.Sets
  /-- The number of passes over the productions for the FIRST sets. -/
  firstPasses : Nat
  /-- The number of passes over the productions for the FOLLOW sets. -/
  followPasses : Nat

namespace FirstFollow

/-- Computes the FIRST and FOLLOW sets of a grammar. -/
def compute (g : Grammar) : FirstFollow :=
  let initial := Sets.initial g
  let firsts := saturate (firstClauses g) (passBound g) initial
  let follows := saturate (followClauses g) (passBound g) firsts.sets
  let step := fun (update : Update) => (Event.updated update.clause, update.sets)
  { first := follows.sets.first
    follow := follows.sets.follow
    history := .ofSteps
      ((.initialised g.startSymbol, initial) :: firsts.updates.map step ++
        (.firstConverged, firsts.sets) :: follows.updates.map step ++
        [(.followConverged, follows.sets)])
    firstPasses := firsts.passes
    followPasses := follows.passes }

/-- The FIRST set of a sequence of symbols. -/
def ofSequence (sets : FirstFollow) (symbols : List Symbol) : SymbolSet :=
  firstOfSequence sets.first symbols

/-- The computation in a few sentences. -/
def log (sets : FirstFollow) : List String :=
  ["Initialized sets. Start symbol gets $ in Follow.",
   "First sets converged after " ++ toString sets.firstPasses ++ " pass(es).",
   "Follow sets converged after " ++ toString sets.followPasses ++ " pass(es).",
   "Fixed point iteration completed."]

end FirstFollow

end TableParsing
