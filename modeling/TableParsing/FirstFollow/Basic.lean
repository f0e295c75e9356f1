import TableParsing.Grammar.Basic
import TableParsing.OrderedMap
import TableParsing.SymbolSet

/-!
# FIRST and FOLLOW sets

The FIRST set of a symbol holds the terminals with which its derivations may begin, and the empty
marker if it derives the empty word. The FOLLOW set of a non-terminal holds what may stand right
after it. This module has the two families of sets, their starting values, and the inclusions
between them: every production contributes to the FIRST set of its left-hand side, and every
occurrence of a non-terminal in a right-hand side to the FOLLOW set of that non-terminal. Each
such inclusion is a `Clause`.
-/

namespace TableParsing.FirstFollow

/-- A set for each of some symbols. -/
abbrev SetMap := OrderedMap Symbol SymbolSet

/-- The FIRST set of a symbol. A symbol without an entry begins with itself. -/
def firstOf (first : SetMap) (s : Symbol) : SymbolSet :=
  (first.get? s).getD (.singleton s)

/-- The FIRST set of a sequence: the first symbols of each member up to the first one that does
not derive the empty word. The empty marker is included if there is no such member. -/
def firstOfSequence (first : SetMap) : List Symbol → SymbolSet
  | [] => .singleton epsilon
  | s :: rest =>
    if epsilon ∈ firstOf first s then
      (firstOf first s).erase epsilon ∪ firstOfSequence first rest
    else firstOf first s

/-- The FIRST and FOLLOW sets at one time of their computation. -/
structure Sets where
  /-- The FIRST sets: of the non-terminals, the terminals and the empty marker. -/
  first : SetMap
  /-- The FOLLOW sets of the non-terminals. -/
  follow : SetMap

/-- The sets before any inclusion is used: the FIRST sets of the non-terminals are empty, and
only the start symbol is followed by something, the end of the input. -/
def Sets.initial (g : Grammar) : Sets where
  first := .ofList
    (g.nonTerminals.map (fun s => (s, .empty)) ++ g.terminals.map (fun s => (s, .singleton s)) ++
      [(epsilon, .singleton epsilon)])
  follow := .ofList
    (g.nonTerminals.map fun s => (s, if s = g.startSymbol then .singleton endMarker else .empty))

/-- An inclusion that the sets have to satisfy. -/
inductive Clause where
  /-- The FIRST set of the left-hand side includes that of the right-hand side. -/
  | first (production : Production)
  /-- The FOLLOW set of a symbol in a right-hand side includes the FIRST set of the symbols after
  it and, where these derive the empty word, the FOLLOW set of the left-hand side. -/
  | follow (production : Production) (symbol : Symbol) (trailer : List Symbol)
deriving DecidableEq, Repr

namespace Clause

/-- The set that is to be included. -/
def contribution (sets : Sets) : Clause → SymbolSet
  | .first p => firstOfSequence sets.first p.rhs
  | .follow p _ trailer =>
    let first := firstOfSequence sets.first trailer
    if epsilon ∈ first then first.erase epsilon ∪ (sets.follow.get? p.lhs).getD .empty else first

/-- The set that is to include it. -/
def current (sets : Sets) : Clause → SymbolSet
  | .first p => (sets.first.get? p.lhs).getD .empty
  | .follow _ s _ => (sets.follow.get? s).getD .empty

/-- Replaces the set of the clause's symbol. -/
def assign (sets : Sets) (value : SymbolSet) : Clause → Sets
  | .first p => { sets with first := sets.first.insert p.lhs value }
  | .follow _ s _ => { sets with follow := sets.follow.insert s value }

end Clause

/-- The symbols of a list, each with the symbols after it. -/
def withTrailers : List Symbol → List (Symbol × List Symbol)
  | [] => []
  | s :: rest => (s, rest) :: withTrailers rest

/-- The inclusions between FIRST sets, by production. -/
def firstClauses (g : Grammar) : List Clause := g.productions.map .first

/-- The inclusions between FOLLOW sets, by production and by place in its right-hand side. -/
def followClauses (g : Grammar) : List Clause :=
  g.productions.flatMap fun p =>
    ((withTrailers p.rhs).filter fun occurrence => g.isNonTerminal occurrence.1).map
      fun occurrence => .follow p occurrence.1 occurrence.2

end TableParsing.FirstFollow
