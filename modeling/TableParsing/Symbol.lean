/-!
# Grammar symbols

Symbols are words. Three of them have a meaning of their own: the marker of an empty right-hand
side, which may also be written by one of two names, and the marker that ends the input.
-/

namespace TableParsing

/-- A grammar symbol. -/
abbrev Symbol := String

/-- The marker `ε` of an empty right-hand side. -/
def epsilon : Symbol := "ε"

/-- The marker that ends the input; grammars may not use it. -/
def endMarker : Symbol := "$"

/-- The other names of the empty marker. -/
def epsilonAliases : List Symbol := ["\\epsilon", "\\varepsilon"]

/-- A symbol of a right-hand side with the names of the empty marker resolved. -/
def Symbol.normalize (s : Symbol) : Symbol :=
  if s ∈ epsilonAliases then epsilon else s

end TableParsing
