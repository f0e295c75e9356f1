import TableParsing.FirstFollow.Saturation
import TableParsing.State
import TableParsing.Table.Basic

/-!
# Shift-reduce tables

A state's row is filled from its transitions and its complete items. A transition on a
non-terminal is a goto, and any other is a shift. The complete item of the added start symbol
accepts at the end of the input. Any other complete item reduces by its production under the
columns that the algorithm allows: all of them, those that may follow the left-hand side, or the
item's own lookahead. Actions that meet in a cell are merged into a conflict.

The entries of a row are listed first (`entriesOf`) and then added one after the other, so that
the contents of a cell follow from the list of its entries.
-/

namespace TableParsing

/-- The production with a number; a negative number counts from the end. -/
def Grammar.production? (g : Grammar) (index : Int) : Option Production :=
  let count : Int := g.rules.length
  let place := if index < 0 then count + index else index
  if 0 ≤ place then g.productions[place.toNat]? else none

namespace Table

/-- The columns under which an item reduces. -/
def reduceColumns (g : Grammar) (sets : FirstFollow) (algorithm : Algorithm) (item : Item) :
    Except Failure (List Symbol) :=
  match algorithm with
  | .lr0 => .ok (g.terminals ++ [endMarker])
  | .slr1 =>
    match sets.follow.get? item.lhs with
    | some follow => .ok follow.toList
    | none => .error (.noFollowSet item.lhs)
  | .ll1 | .lr1 => .ok item.lookahead.toList

/-- The entries that a transition makes. -/
def transitionEntry (g : Grammar) (symbol : Symbol) (target : Int) : Symbol × Action :=
  (symbol, if g.isNonTerminal symbol then .goto target else .shift target)

/-- The entries that an item makes. -/
def itemEntries (g : Grammar) (sets : FirstFollow) (algorithm : Algorithm)
    (augmented : Production) (item : NumberedItem) : Except Failure (List (Symbol × Action)) :=
  if !item.isComplete then .ok []
  else if item.lhs = augmented.lhs then
    if algorithm ≠ .lr1 ∨ item.lookahead = some endMarker then .ok [(endMarker, .accept)]
    else .ok []
  else
    match g.production? item.index with
    | none => .error .noSuchProduction
    | some p =>
      (reduceColumns g sets algorithm item.toItem).map fun columns =>
        columns.map fun symbol => (symbol, .reduce p)

/-- The entries of each item of a list, one after the other. -/
def allItemEntries (g : Grammar) (sets : FirstFollow) (algorithm : Algorithm)
    (augmented : Production) : List NumberedItem → Except Failure (List (Symbol × Action))
  | [] => .ok []
  | item :: items =>
    match itemEntries g sets algorithm augmented item with
    | .error failure => .error failure
    | .ok entries =>
      (allItemEntries g sets algorithm augmented items).map fun others => entries ++ others

/-- The entries of a state's row in the order in which they are added. -/
def entriesOf (g : Grammar) (sets : FirstFollow) (algorithm : Algorithm)
    (augmented : Production) (state : State) : Except Failure (List (Symbol × Action)) :=
  (allItemEntries g sets algorithm augmented state.items).map fun reductions =>
    (state.transitions.entries.map fun step => transitionEntry g step.1 step.2) ++ reductions

/-- The entries of the rows of some states. -/
def allEntries (g : Grammar) (sets : FirstFollow) (algorithm : Algorithm)
    (augmented : Production) : List State → Except Failure (List (Row × Symbol × Action))
  | [] => .ok []
  | state :: states =>
    match entriesOf g sets algorithm augmented state with
    | .error failure => .error failure
    | .ok entries =>
      (allEntries g sets algorithm augmented states).map fun others =>
        (entries.map fun entry => (.state state.id, entry)) ++ others

/-- Adds entries to a table one after the other. -/
def addAll (table : Table) (entries : List (Row × Symbol × Action)) : Table :=
  entries.foldl (fun table entry => table.add entry.1 entry.2.1 entry.2.2) table

/-- The shift-reduce table of some states. -/
def shiftReduce (g : Grammar) (sets : FirstFollow) (algorithm : Algorithm)
    (augmented : Production) (states : List State) : Except Failure Table :=
  (allEntries g sets algorithm augmented states).map fun entries =>
    addAll
      (withRows algorithm (g.terminals ++ [endMarker]) g.nonTerminals
        (states.map fun state => .state state.id))
      entries

end Table

end TableParsing
