import TableParsing.FirstFollow.Saturation
import TableParsing.Table.Basic

/-!
# Predictive tables

A production is entered into the row of its left-hand side under every symbol that it predicts:
the terminals with which its right-hand side may begin and, where the right-hand side derives the
empty word, all that may follow the left-hand side. Of two productions for one cell the later is
kept, and the cell is noted as overwritten.
-/

namespace TableParsing.Table

/-- The symbols that a production predicts, in the order in which its cells are filled. -/
def predicted (sets : FirstFollow) (p : Production) : List Symbol :=
  let first := sets.ofSequence p.rhs
  (first.erase epsilon).toList ++
    if epsilon ∈ first then ((sets.follow.get? p.lhs).getD .empty).toList else []

/-- Enters a production under a symbol. -/
def predict (table : Table) (p : Production) (symbol : Symbol) : Table :=
  let entered := table.set (.nonTerminal p.lhs) symbol (.predict p)
  match (table.get? (.nonTerminal p.lhs) symbol).bind Action.production? with
  | some old =>
    if old = p then entered
    else { entered with overwrites := table.overwrites ++ [⟨p.lhs, symbol, old, p⟩] }
  | none => entered

/-- The productions of a grammar, each with the symbols that it predicts, in the order in which
they are entered. -/
def predictions (g : Grammar) (sets : FirstFollow) : List (Production × Symbol) :=
  g.productions.flatMap fun p => (predicted sets p).map fun symbol => (p, symbol)

/-- The predictive table of a grammar. -/
def predictive (g : Grammar) (sets : FirstFollow) : Table :=
  (predictions g sets).foldl (fun table entry => table.predict entry.1 entry.2)
    (withRows .ll1 (g.terminals ++ [endMarker]) [] (g.nonTerminals.map .nonTerminal))

end TableParsing.Table
