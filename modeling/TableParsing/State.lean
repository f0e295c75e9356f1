import TableParsing.Item.Basic
import TableParsing.OrderedMap

/-!
# States of an automaton of items

A state is a list of items with a number, and with the numbers of the states that reading a
symbol leads to.
-/

namespace TableParsing

/-- A state: its items, and where reading a symbol leads. -/
structure State where
  /-- The number of the state. -/
  id : Int
  /-- The items, in the order of their productions. -/
  items : List NumberedItem
  /-- The states that symbols lead to, in the order in which they were found. -/
  transitions : OrderedMap Symbol Int

namespace State

/-- The state as a text: its number, and its items one a line. -/
def text (state : State) : String :=
  "State " ++ toString state.id ++ ":\n  " ++
    "\n  ".intercalate (state.items.map fun item => item.text)

end State

end TableParsing
