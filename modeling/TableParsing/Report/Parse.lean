import TableParsing.Json
import TableParsing.Simulation

/-!
# Parses as JSON
-/

namespace TableParsing

namespace Tree

mutual

/-- A tree. -/
def toJson : Tree → Json
  | .node id label children =>
    .obj [("id", .str ("node-" ++ toString id)), ("label", .str label),
      ("children", .arr (forestToJson children))]

/-- The trees of a list. -/
def forestToJson : List Tree → List Json
  | [] => []
  | tree :: rest => toJson tree :: forestToJson rest

end

/-- A tree that may be absent. -/
def orNull : Option Tree → Json
  | some tree => toJson tree
  | none => .null

end Tree

/-- A step of a trace, with its trees if they are wanted. -/
def TraceStep.toJson (withTrees : Bool) (number : Nat) (step : TraceStep) : Json :=
  .obj ([("step", .nat number), ("stack", .strings step.stack), ("input", .strings step.input),
      ("action", .str step.move.text)] ++
    (if withTrees then [("trees", .arr (Tree.forestToJson step.trees))] else []) ++
    (if step.symbols.isEmpty then [] else [("symbols", .strings step.symbols)]))

namespace ParseResult

/-- The fields that describe a simulated parse. -/
def fields (withTrees : Bool) (result : ParseResult) : List (String × Json) :=
  [("algorithm", .str result.algorithm.name), ("success", .bool result.success),
   ("status", .str result.outcome.name), ("error", .strOrNull result.error?),
   ("parse_tree", Tree.orNull result.tree),
   ("trace", .arr (result.trace.mapIdx fun number step => step.toJson withTrees number))]

/-- A simulated parse. -/
def toJson (result : ParseResult) : Json := .obj (result.fields true)

end ParseResult

end TableParsing
