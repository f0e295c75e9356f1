import TableParsing.FirstFollow.Saturation
import TableParsing.Json

/-!
# Grammars and their sets as JSON
-/

namespace TableParsing

/-- A production with its parts and its text. -/
def Production.toJson (p : Production) : Json :=
  .obj [("lhs", .str p.lhs), ("rhs", .strings p.rhs), ("index", .int p.index),
    ("text", .str p.text)]

/-- A skipped line. -/
def SkippedLine.toJson (line : SkippedLine) : Json :=
  .obj [("line", .nat line.number), ("text", .str line.text)]

/-- The fields that describe a grammar. -/
def Grammar.fields (g : Grammar) : List (String × Json) :=
  [("start_symbol", .str g.startSymbol), ("non_terminals", .strings g.nonTerminals),
   ("terminals", .strings g.terminals),
   ("productions", .arr (g.productions.map Production.toJson)),
   ("skipped_lines", .arr (g.skipped.map SkippedLine.toJson))]

/-- A grammar. -/
def Grammar.toJson (g : Grammar) : Json := .obj g.fields

/-- A snapshot: its number, its caption, and its data in a given form. -/
def Snapshot.toJson {ε α : Type} (caption : ε → Caption) (data : α → Json)
    (snapshot : Snapshot ε α) : Json :=
  let shown := caption snapshot.event
  .obj [("step_index", .nat snapshot.index), ("description", .str shown.description),
    ("data", data snapshot.data), ("active_symbol", .strOrNull shown.symbol),
    ("active_state_id", .intOrNull shown.state), ("target_state_id", .intOrNull shown.target)]

namespace FirstFollow

/-- A set for each of some symbols. -/
def SetMap.toJson (sets : SetMap) : Json :=
  .obj (sets.entries.map fun entry => (entry.1, .strings entry.2.toList))

/-- The sets at one time of the computation. -/
def Sets.toJson (sets : Sets) : Json :=
  .obj [("first", SetMap.toJson sets.first), ("follow", SetMap.toJson sets.follow)]

/-- The fields that describe the sets, but for the history. -/
def resultFields (sets : FirstFollow) : List (String × Json) :=
  [("first", SetMap.toJson sets.first), ("follow", SetMap.toJson sets.follow),
   ("logs", .strings sets.log)]

/-- The computation step by step. -/
def historyJson (sets : FirstFollow) : Json :=
  .arr (sets.history.map (Snapshot.toJson Event.caption Sets.toJson))

/-- The sets with their history. -/
def toJson (sets : FirstFollow) : Json :=
  .obj (sets.resultFields ++ [("history", sets.historyJson)])

end FirstFollow

end TableParsing
