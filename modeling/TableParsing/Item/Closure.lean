import TableParsing.Failure
import TableParsing.FirstFollow.Saturation
import TableParsing.Item.Basic

/-!
# Closure and goto

An item whose dot is before a non-terminal calls for the items of the productions of that
non-terminal. The closure of a list of items adds all that are called for, directly or not, and
sorts the result; the goto of a list on a symbol is the closure of the items in which the dot has
moved over the symbol.

The closure is found with a work list (`expand`). No item enters it twice, and an item that is
called for belongs to a production of the grammar and has a lookahead out of a known pool
(`lookaheadPool`); so the number of seeds, plus one item for each production and each lookahead of
the pool or none, bounds the number of steps (`closureBound`).

`closure` is total, and it is meant for items whose dots have a place. Items that come from
outside go through `close`, which refuses the others.
-/

namespace TableParsing

/-- The items of a grammar: how lookaheads are found, if there are any. -/
structure ItemSystem where
  /-- The grammar. -/
  grammar : Grammar
  /-- Its FIRST sets. -/
  first : FirstFollow.SetMap
  /-- Whether items carry lookaheads. -/
  hasLookahead : Bool

namespace ItemSystem

/-- The items that an algorithm uses. -/
def ofAlgorithm (g : Grammar) (sets : FirstFollow) (algorithm : Algorithm) :
    Except Failure ItemSystem :=
  match algorithm with
  | .ll1 => .error (.noItems algorithm)
  | .lr0 | .slr1 => .ok ⟨g, sets.first, false⟩
  | .lr1 => .ok ⟨g, sets.first, true⟩

variable (system : ItemSystem)

/-- The lookaheads of the items that an item calls for, in increasing order: what the symbols
behind the non-terminal may begin with and, where these derive the empty word, the item's own
lookahead. -/
def lookaheads (item : Item) : List (Option Symbol) :=
  if system.hasLookahead then
    let first := FirstFollow.firstOfSequence system.first item.trailer
    let begins := first.erase epsilon
    let all :=
      match item.lookahead with
      | some symbol => if epsilon ∈ first then begins.insert symbol else begins
      | none => begins
    all.toList.map some
  else [none]

/-- The items that an item calls for. -/
def calledFor (item : Item) : List NumberedItem :=
  match item.next? with
  | none => []
  | some symbol =>
    let productions := system.grammar.productionsOf symbol
    (system.lookaheads item).flatMap fun lookahead =>
      productions.map fun p => .start p lookahead

/-- The items of a list that are not among others, once each. -/
def newItems (seen candidates : List NumberedItem) : List NumberedItem :=
  distinctBy NumberedItem.toItem (candidates.filter fun item => !item.isIn seen)

/-- Works through a list of items and adds those they call for at its end; `done` holds the ones
that have been worked through. -/
def expand : (bound : Nat) → (done todo : List NumberedItem) → List NumberedItem
  | 0, done, todo => done ++ todo
  | _ + 1, done, [] => done
  | bound + 1, done, item :: todo =>
    expand bound (done ++ [item])
      (todo ++ newItems (done ++ item :: todo) (system.calledFor item.toItem))

/-- Every symbol that can become a lookahead when the given items are closed. -/
def lookaheadPool (items : List NumberedItem) : List Symbol :=
  system.first.values.flatMap SymbolSet.toList ++ system.grammar.rules.flatMap Rule.body ++
    items.flatMap (fun item => item.rhs) ++ items.filterMap (fun item => item.lookahead)

/-- A bound on the number of items in the closure of the given ones. -/
def closureBound (items : List NumberedItem) : Nat :=
  items.length + system.grammar.rules.length * ((system.lookaheadPool items).length + 1)

/-- The given items and all that they call for, sorted. -/
def closure (items : List NumberedItem) : List NumberedItem :=
  NumberedItem.sort <|
    system.expand (system.closureBound items) [] (distinctBy NumberedItem.toItem items)

/-- The closure of items that may have dots without a place. -/
def close (items : List NumberedItem) : Except Failure (List NumberedItem) :=
  if items.all fun item => item.isPlaced then .ok (system.closure items)
  else .error .dotOutsideBody

/-- The items after a symbol has been read: none if no item expects it. -/
def goto (items : List NumberedItem) (symbol : Symbol) : List NumberedItem :=
  system.closure ((items.filter fun item => item.next? = some symbol).map NumberedItem.advance)

/-- The closure of the item of the added start symbol. -/
def start (lookahead : Option Symbol) : List NumberedItem :=
  system.closure [.start system.grammar.augmentedProduction lookahead]

end ItemSystem

/-- The symbol right after the dot of an item that may have a dot without a place. -/
def Item.expects (item : Item) : Except Failure (Option Symbol) :=
  if item.isPlaced then .ok item.next? else .error .dotOutsideBody

/-- The symbols right after the dots, in the order of their first occurrence. -/
def NumberedItem.expected (items : List NumberedItem) : List Symbol :=
  distinct (items.filterMap fun item => item.next?)

end TableParsing
