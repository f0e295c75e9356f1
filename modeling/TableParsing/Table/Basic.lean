import TableParsing.Action
import TableParsing.OrderedMap

/-!
# Parsing tables

A table has a row for each state, or for each non-terminal, and a column for each symbol. Rows
and the cells of a row keep the order in which they were first filled. A predictive table also
keeps the list of its overwritten cells.
-/

namespace TableParsing

/-- What a row belongs to. -/
inductive Row where
  /-- A state of an automaton. -/
  | state (number : Int)
  /-- A non-terminal. -/
  | nonTerminal (symbol : Symbol)
deriving DecidableEq, Repr

/-- The heading of a row. -/
def Row.text : Row → String
  | .state n => toString n
  | .nonTerminal s => s

/-- A cell of a predictive table whose production was replaced by a later one. -/
structure Overwrite where
  /-- The non-terminal of the row. -/
  nonTerminal : Symbol
  /-- The terminal of the column. -/
  terminal : Symbol
  /-- The production that was in the cell. -/
  replaced : Production
  /-- The production that took its place. -/
  production : Production
deriving DecidableEq, Repr

/-- An overwrite as a text. -/
def Overwrite.text (o : Overwrite) : String :=
  "M[" ++ o.nonTerminal ++ ", " ++ o.terminal ++ "]: " ++ o.replaced.text ++ " replaced by " ++
    o.production.text

/-- A cell that holds more than one action. -/
structure Conflict where
  /-- The row of the cell. -/
  row : Row
  /-- The column of the cell. -/
  symbol : Symbol
  /-- The actions by priority. -/
  actions : List Action

namespace Conflict

/-- What is in conflict: a shift with something else, or reductions only. -/
def kind (c : Conflict) : String :=
  if c.actions.any Action.isShift then "shift/reduce" else "reduce/reduce"

/-- A conflict as a text. -/
def text (c : Conflict) : String :=
  c.kind ++ " conflict in state " ++ c.row.text ++ " on symbol '" ++ c.symbol ++ "': " ++
    " vs ".intercalate (c.actions.map Action.text)

end Conflict

/-- A parsing table. -/
structure Table where
  /-- The algorithm that the table is for. -/
  algorithm : Algorithm
  /-- The columns of actions: the terminals and the end marker. -/
  actionHeaders : List Symbol
  /-- The columns of gotos: the non-terminals. -/
  gotoHeaders : List Symbol
  /-- The rows and their cells. -/
  rows : OrderedMap Row (OrderedMap Symbol Action)
  /-- The cells that were overwritten. -/
  overwrites : List Overwrite

namespace Table

/-- A table without rows. -/
def empty (algorithm : Algorithm) (actionHeaders gotoHeaders : List Symbol) : Table :=
  ⟨algorithm, actionHeaders, gotoHeaders, .empty, []⟩

/-- A table with empty rows. -/
def withRows (algorithm : Algorithm) (actionHeaders gotoHeaders : List Symbol)
    (rows : List Row) : Table :=
  ⟨algorithm, actionHeaders, gotoHeaders, .ofList (rows.map fun row => (row, .empty)), []⟩

/-- All columns. -/
def headers (table : Table) : List Symbol := table.actionHeaders ++ table.gotoHeaders

/-- The cells of a row. -/
def cells (table : Table) (row : Row) : OrderedMap Symbol Action :=
  (table.rows.get? row).getD .empty

/-- The action in a cell. -/
def get? (table : Table) (row : Row) (symbol : Symbol) : Option Action :=
  (table.cells row).get? symbol

/-- Puts an action into a cell, whatever it held. -/
def set (table : Table) (row : Row) (symbol : Symbol) (action : Action) : Table :=
  { table with rows := table.rows.insert row ((table.cells row).insert symbol action) }

/-- Adds an action to a cell, which becomes a conflict if it held another one. -/
def add (table : Table) (row : Row) (symbol : Symbol) (action : Action) : Table :=
  table.set row symbol (Action.merge (table.get? row symbol) action)

/-- The cells that are conflicts, by row and column. -/
def conflicts (table : Table) : List Conflict :=
  table.rows.entries.flatMap fun row =>
    row.2.entries.filterMap fun cell =>
      if cell.2.isConflict then some ⟨row.1, cell.1, cell.2.choices⟩ else none

/-- The filled cells of a row under the headers, as lines of text. -/
def rowLines (headers : List Symbol) (row : Row) (cells : OrderedMap Symbol Action) :
    List String :=
  headers.filterMap fun symbol =>
    (cells.get? symbol).map fun action =>
      "  M[" ++ row.text ++ ", " ++ symbol ++ "] = " ++ action.text

/-- The table as a text: its filled cells, one a line. -/
def text (table : Table) : String :=
  "\n".intercalate
    ((table.algorithm.name ++ " Parsing Table:") ::
      table.rows.entries.flatMap fun row => rowLines table.headers row.1 row.2)

/-! ## Lemmas -/

/-- Setting a cell changes that cell and no other. -/
theorem get?_set (table : Table) (row row' : Row) (symbol symbol' : Symbol) (action : Action) :
    (table.set row symbol action).get? row' symbol' =
      if row = row' ∧ symbol = symbol' then some action else table.get? row' symbol' := by
  by_cases hr : row = row'
  · subst hr
    by_cases hs : symbol = symbol' <;>
      simp [get?, cells, set, OrderedMap.get?_insert, hs]
  · simp [get?, cells, set, OrderedMap.get?_insert, hr]

end Table

end TableParsing
