import TableParsing.Collection
import TableParsing.Report.Grammar

/-!
# Items, states and tables as JSON
-/

namespace TableParsing

/-- The fields that describe an item. -/
def NumberedItem.fields (item : NumberedItem) : List (String × Json) :=
  [("lhs", .str item.lhs), ("rhs", .strings item.rhs), ("dot", .int item.dot),
   ("lookahead", .strOrNull item.lookahead), ("production_index", .int item.index),
   ("text", .str item.text)]

/-- An item. -/
def NumberedItem.toJson (item : NumberedItem) : Json := .obj item.fields

/-- The transitions of a state. -/
def State.transitionsJson (state : State) : Json :=
  .obj (state.transitions.entries.map fun step => (step.1, .int step.2))

/-- A state. -/
def State.toJson (state : State) : Json :=
  .obj [("id", .int state.id), ("items", .arr (state.items.map NumberedItem.toJson)),
    ("transitions", state.transitionsJson)]

/-- States of an automaton. -/
def State.listToJson (states : List State) : Json := .arr (states.map State.toJson)

namespace Action

mutual

/-- An action with its kind, its text, and what belongs to its kind. -/
def toJson : Action → Json
  | .shift n => .obj [("type", .str "shift"), ("text", .str (text (.shift n))), ("state", .int n)]
  | .goto n => .obj [("type", .str "goto"), ("text", .str (text (.goto n))), ("state", .int n)]
  | .reduce p =>
    .obj [("type", .str "reduce"), ("text", .str (text (.reduce p))), ("production", .str p.text)]
  | .predict p =>
    .obj [("type", .str "predict"), ("text", .str (text (.predict p))),
      ("production", .str p.text)]
  | .accept => .obj [("type", .str "accept"), ("text", .str (text .accept))]
  | .conflict a b others =>
    .obj [("type", .str "conflict"), ("text", .str (text (.conflict a b others))),
      ("alternatives", .arr (toJson a :: toJson b :: listToJson others))]

/-- The actions of a list. -/
def listToJson : List Action → List Json
  | [] => []
  | a :: rest => toJson a :: listToJson rest

end

end Action

/-- A conflict of a table. -/
def Conflict.toJson (c : Conflict) : Json :=
  .obj [("state", match c.row with | .state n => .int n | .nonTerminal s => .str s),
    ("symbol", .str c.symbol), ("type", .str c.kind),
    ("actions", .strings (c.actions.map Action.text))]

namespace Table

/-- The cells of a row by their columns. -/
def rowJson (cells : OrderedMap Symbol Action) : Json :=
  .obj (cells.entries.map fun cell => (cell.1, .str cell.2.text))

/-- The fields that describe a table. Of two rows with one heading the later is shown. -/
def fields (table : Table) : List (String × Json) :=
  [("algorithm", .str table.algorithm.name), ("headers", .strings table.headers),
   ("action_headers", .strings table.actionHeaders),
   ("goto_headers", .strings table.gotoHeaders),
   ("rows", Json.object (table.rows.entries.map fun row => (row.1.text, rowJson row.2))),
   ("conflicts", .arr (table.conflicts.map Conflict.toJson)),
   ("overwrites", .strings (table.overwrites.map Overwrite.text))]

/-- A table. -/
def toJson (table : Table) : Json := .obj table.fields

end Table

namespace Collection

/-- The construction step by step. -/
def historyJson (collection : Collection) : Json :=
  .arr (collection.history.map (Snapshot.toJson Event.caption State.listToJson))

/-- The states and the table of an algorithm with their history. -/
def toJson (collection : Collection) : Json :=
  .obj [("algorithm", .str collection.algorithm.name),
    ("augmented_production", .str collection.augmented.text),
    ("states", State.listToJson collection.states), ("table", collection.table.toJson),
    ("history", collection.historyJson)]

end Collection

end TableParsing
