/-!
# Sample grammars

Four small grammars to start from, with the names under which they are offered.
-/

namespace TableParsing.Grammar

/-- The names and texts of the samples. -/
def samples : List (String × String) :=
  [("expression", "E -> E + T | T\nT -> T * F | F\nF -> ( E ) | id"),
   ("S -> A A", "S -> A A\nA -> a A | b"),
   ("LR(1) example", "S -> C b B A\nA -> A a b\nA -> a b\nB -> c\nB -> D b\nC -> a\nD -> a"),
   ("LR(0) example", "S -> A\nS -> B\nA -> a A b\nA -> C\nB -> a B b\nB -> d")]

end TableParsing.Grammar
