import TableParsing.Json.Literal
import TableParsing.Text.Blank

/-!
# Parsing algorithms

The four ways to build a parsing table, and how a client names them: the case of the letters,
parentheses, and white space at the ends do not matter, so that `LR(1)`, `lr1` and ` Lr1 ` are the
same algorithm.
-/

namespace TableParsing

/-- A way to build a parsing table. -/
inductive Algorithm where
  /-- Predictive parsing. -/
  | ll1
  /-- Shift-reduce parsing without lookahead. -/
  | lr0
  /-- Shift-reduce parsing that reduces on the symbols that may follow. -/
  | slr1
  /-- Shift-reduce parsing with a lookahead in each item. -/
  | lr1
deriving DecidableEq, Repr

namespace Algorithm

/-- All algorithms. -/
def all : List Algorithm := [.ll1, .lr0, .slr1, .lr1]

/-- The algorithms that work with items. -/
def shiftReduce : List Algorithm := [.lr0, .slr1, .lr1]

/-- The name of an algorithm. -/
def name : Algorithm → String
  | .ll1 => "LL(1)"
  | .lr0 => "LR(0)"
  | .slr1 => "SLR(1)"
  | .lr1 => "LR(1)"

/-- The capital form of a letter, as far as names of algorithms can hold it. The long s is a form
of the letter s. -/
def capital (c : Char) : Char := if c = 'ſ' then 'S' else c.toUpper

/-- What a name is compared by: capitals, no parentheses, no white space at the ends. -/
def key (name : String) : List Char :=
  Text.strip ((name.toList.map capital).filter fun c => c ≠ '(' && c ≠ ')')

/-- The algorithm of a name. -/
def ofName? (name : String) : Option Algorithm :=
  all.find? fun algorithm => key algorithm.name = key name

/-- The algorithm that a JSON value names, taken as a word. -/
def ofJson? (value : Json) : Option Algorithm := ofName? value.text

end Algorithm

end TableParsing
