import TableParsing.Algorithm
import TableParsing.Symbol

/-!
# Failures

Why an operation gives no result. `Failure.message` words the cause.
-/

namespace TableParsing

/-- A cause for an operation to fail. -/
inductive Failure where
  /-- The grammar text holds no rule. -/
  | noProduction
  /-- The value names no algorithm. -/
  | unknownAlgorithm (name : Json)
  /-- Items were asked for with an algorithm that has none. -/
  | noItems (algorithm : Algorithm)
  /-- A conflict was given fewer than two alternatives. -/
  | tooFewAlternatives
  /-- An item refers to a production that the grammar does not have. -/
  | noSuchProduction
  /-- The dot of an item is before the front of its body. -/
  | dotOutsideBody
  /-- The symbols that may follow were asked for a symbol without rules. -/
  | noFollowSet (symbol : Symbol)

namespace Failure

/-- The wording of a failure. -/
def message : Failure → String
  | .noProduction => "Grammar text does not contain any production of the form 'A -> ...'"
  | .unknownAlgorithm name => "Unknown algorithm: " ++ name.literal
  | .noItems algorithm => algorithm.name ++ " does not use LR items"
  | .tooFewAlternatives => "A conflict needs at least two alternatives"
  | .noSuchProduction | .dotOutsideBody => "tuple index out of range"
  | .noFollowSet symbol => Text.quoted symbol

end Failure

/-- The algorithm that a JSON value names. -/
def Algorithm.resolve (name : Json) : Except Failure Algorithm :=
  match ofJson? name with
  | some algorithm => .ok algorithm
  | none => .error (.unknownAlgorithm name)

end TableParsing
