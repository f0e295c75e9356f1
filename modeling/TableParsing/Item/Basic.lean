import TableParsing.Grammar.Basic

/-!
# Items

An item is a rule with a dot in its body, which marks how much of the body has been read, and
possibly a lookahead, the symbol that has to follow the rule. The body holds no empty markers, so
the item of an empty rule is complete from the start.

The place of the dot is counted from the front of the body, or, as a negative number, back from
its end: at `-1` one symbol is after the dot. A dot may lie behind the end, and the item is
complete there; a dot that lies before the front has no place in the body (`isPlaced`), and what
it expects is unknown.

A numbered item also knows from which production it was made. The number only orders a list of
items; two items are the same if they agree in all else.
-/

namespace TableParsing

/-- A rule with a dot in its body. -/
structure Item where
  /-- The left-hand side of the rule. -/
  lhs : Symbol
  /-- The body of the rule. -/
  rhs : List Symbol
  /-- The place of the dot: the number of symbols before it, or minus the number after it. -/
  dot : Int
  /-- The symbol that has to follow, where the algorithm keeps one. -/
  lookahead : Option Symbol
deriving DecidableEq, Repr

namespace Item

/-- Whether the dot is not before the front of the body. -/
def isPlaced (item : Item) : Bool := -(item.rhs.length : Int) ≤ item.dot

/-- The number of symbols before the dot, as far as the body has that many. -/
def before (item : Item) : Nat :=
  (if item.dot < 0 then item.rhs.length + item.dot else item.dot).toNat

/-- The symbol right after the dot, if the dot has a place. -/
def next? (item : Item) : Option Symbol :=
  if item.isPlaced then item.rhs[item.before]? else none

/-- Whether the dot is at the end of the body or behind it. -/
def isComplete (item : Item) : Bool := item.rhs.length ≤ item.dot

/-- The item with the dot one place further. -/
def advance (item : Item) : Item := { item with dot := item.dot + 1 }

/-- The symbols behind the one after the dot: those that are after the dot one place further. -/
def trailer (item : Item) : List Symbol := item.rhs.drop item.advance.before

/-- The item as text: the rule with a point for the dot, in brackets with its lookahead if it has
one. -/
def text (item : Item) : String :=
  let rule := item.lhs ++ " -> " ++
    " ".intercalate (item.rhs.take item.before ++ ["."] ++ item.rhs.drop item.before)
  match item.lookahead with
  | some symbol => "[" ++ rule ++ ", " ++ symbol ++ "]"
  | none => rule

end Item

/-- An item with the number of the production from which it was made. -/
structure NumberedItem extends Item where
  /-- The number of the production. -/
  index : Int
deriving DecidableEq, Repr

namespace NumberedItem

/-- The item of a production with the dot before its body. -/
def start (p : Production) (lookahead : Option Symbol) : NumberedItem :=
  ⟨⟨p.lhs, p.body, 0, lookahead⟩, p.index⟩

/-- The item with the dot one place further. -/
def advance (item : NumberedItem) : NumberedItem := ⟨item.toItem.advance, item.index⟩

/-- Whether an item is listed no later than another: by production, dot and lookahead. -/
def le (a b : NumberedItem) : Bool :=
  if a.index < b.index then true
  else if b.index < a.index then false
  else if a.dot < b.dot then true
  else if b.dot < a.dot then false
  else !(b.lookahead.getD "" < a.lookahead.getD "" : Bool)

/-- Puts an item before the first one that it is not listed after. -/
def insertSorted (item : NumberedItem) : List NumberedItem → List NumberedItem
  | [] => [item]
  | other :: rest =>
    if item.le other then item :: other :: rest else other :: insertSorted item rest

/-- Sorts items by production, dot and lookahead. Items that agree in these keep their order. -/
def sort (items : List NumberedItem) : List NumberedItem := items.foldr insertSorted []

/-- Whether a list holds an item, whatever its number. -/
def isIn (item : NumberedItem) (items : List NumberedItem) : Bool :=
  items.any fun other => other.toItem = item.toItem

/-- Whether two lists hold the same items, whatever their numbers. -/
def sameItems (xs ys : List NumberedItem) : Bool :=
  xs.all (fun x => x.isIn ys) && ys.all (fun y => y.isIn xs)

end NumberedItem

end TableParsing
