import TableParsing.Distinct
import TableParsing.Symbol
import TableParsing.Text.Quoted

/-!
# Context-free grammars

A grammar is a non-empty list of rules. All else that is said of it follows from the rules: its
non-terminals are the left-hand sides, its terminals the other symbols of the right-hand sides,
its start symbol is the left-hand side of the first rule, and the number of a production is its
place in the list.

The empty right-hand side is written with the marker `ε`. The symbols that a rule derives, its
`body`, are the right-hand side without such markers.
-/

namespace TableParsing

/-- A rewriting rule. -/
structure Rule where
  /-- The non-terminal that is rewritten. -/
  lhs : Symbol
  /-- The symbols as they are written, empty markers included. -/
  rhs : List Symbol
deriving DecidableEq, Repr

namespace Rule

/-- The symbols that the rule derives. -/
def body (r : Rule) : List Symbol := r.rhs.filter (· ≠ epsilon)

/-- Whether the rule derives the empty word directly. -/
def isEpsilon (r : Rule) : Bool := r.body.isEmpty

/-- The rule as one line of text. -/
def text (r : Rule) : String :=
  r.lhs ++ " -> " ++ (if r.rhs.isEmpty then epsilon else " ".intercalate r.rhs)

end Rule

/-- A rule with its number. The number is part of the production: two rules with the same text
are different productions. -/
structure Production extends Rule where
  /-- The place in the grammar, or `-1` for the production of an added start symbol. -/
  index : Int
deriving DecidableEq, Repr

/-- A line of a grammar text that gives no rule. -/
structure SkippedLine where
  /-- The number of the line, from one. -/
  number : Nat
  /-- The line without the white space at its ends. -/
  text : String
deriving DecidableEq, Repr

/-- A context-free grammar. -/
structure Grammar where
  /-- The rules in the order in which they are written. -/
  rules : List Rule
  /-- There is a first rule, which gives the start symbol. -/
  rules_ne_nil : rules ≠ []
  /-- The lines of the text that gave no rule. -/
  skipped : List SkippedLine

namespace Grammar

/-- The left-hand side of the first rule. -/
def startSymbol (g : Grammar) : Symbol := (g.rules.head g.rules_ne_nil).lhs

/-- The rules with their numbers. -/
def productions (g : Grammar) : List Production :=
  g.rules.mapIdx fun i r => ⟨r, (i : Int)⟩

/-- The left-hand sides in the order of their first rules. -/
def nonTerminals (g : Grammar) : List Symbol := distinct (g.rules.map Rule.lhs)

/-- Whether a symbol has a rule. -/
def isNonTerminal (g : Grammar) (s : Symbol) : Bool := g.rules.any fun r => r.lhs = s

/-- Whether a symbol of the right-hand sides is a terminal: it has no rule and is not the empty
marker. -/
def isTerminalName (g : Grammar) (s : Symbol) : Bool := s ≠ epsilon && !g.isNonTerminal s

/-- The terminals in the order of their first use. -/
def terminals (g : Grammar) : List Symbol :=
  distinct ((g.rules.flatMap Rule.rhs).filter g.isTerminalName)

/-- Whether a symbol is one of the terminals. -/
def isTerminal (g : Grammar) (s : Symbol) : Bool := g.terminals.contains s

/-- The productions of a non-terminal in their order. -/
def productionsOf (g : Grammar) (s : Symbol) : List Production :=
  g.productions.filter fun p => p.lhs = s

/-! ## The added start symbol -/

/-- Primes a name until it is not in use, at most as often as the bound says. -/
def freshName (inUse : Symbol → Bool) : (bound : Nat) → Symbol → Symbol
  | 0, name => name
  | bound + 1, name => if inUse name then freshName inUse bound (name ++ "'") else name

/-- A start symbol that the grammar does not use: the start symbol with one prime or more. Each
rejected name is another symbol of the grammar, so there are no more rejected names than
symbols. -/
def augmentedStart (g : Grammar) : Symbol :=
  freshName (fun s => g.isNonTerminal s || g.isTerminal s)
    (g.nonTerminals.length + g.terminals.length) (g.startSymbol ++ "'")

/-- The production of the added start symbol. -/
def augmentedProduction (g : Grammar) : Production :=
  ⟨⟨g.augmentedStart, [g.startSymbol]⟩, -1⟩

/-! ## Text -/

/-- A list of symbols as it is shown inside a text. -/
def symbolList (symbols : List Symbol) : String :=
  "[" ++ ", ".intercalate (symbols.map Text.quoted) ++ "]"

/-- The grammar as a text for people. -/
def text (g : Grammar) : String :=
  "\n".intercalate
    (["Start Symbol: " ++ g.startSymbol,
      "Terminals: " ++ symbolList g.terminals,
      "Non-terminals: " ++ symbolList g.nonTerminals,
      "Productions:"] ++ g.productions.map fun p => "  " ++ p.text)

/-! ## Lemmas -/

theorem isNonTerminal_iff {g : Grammar} {s : Symbol} :
    g.isNonTerminal s = true ↔ s ∈ g.nonTerminals := by
  simp only [isNonTerminal, nonTerminals, List.any_eq_true, decide_eq_true_eq, mem_distinct,
    List.mem_map]

theorem isTerminal_iff {g : Grammar} {s : Symbol} :
    g.isTerminal s = true ↔ s ∈ g.terminals := by
  simp [isTerminal]

/-- The productions are numbered by their places. -/
theorem getElem?_productions (g : Grammar) (i : Nat) :
    g.productions[i]? = g.rules[i]?.map fun r => ⟨r, (i : Int)⟩ := by
  simp [productions, List.getElem?_mapIdx]

end Grammar

end TableParsing
