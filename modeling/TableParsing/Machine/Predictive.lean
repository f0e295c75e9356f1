import TableParsing.Machine.Basic
import TableParsing.Table.Basic

/-!
# The predictive machine

The stack holds the symbols that are still due, the next one on top. A terminal on top has to be
the next symbol of the input, and a non-terminal on top is expanded by the production that the
table gives for the next symbol. Each symbol on the stack is the leaf of a tree that grows from
the start symbol, and an expansion gives children to that leaf.

Below the symbols lies the end marker, which is never taken off: when it is on top, the input has
to be at its end. The same holds when a due symbol is the end marker itself.
-/

namespace TableParsing.Predictive

/-- A symbol that is due. -/
structure Due where
  /-- The symbol. -/
  symbol : Symbol
  /-- The number of its leaf in the tree. -/
  node : Nat
deriving DecidableEq, Repr

/-- The state of the machine. -/
structure Config where
  /-- The symbols that are due, the next one first. -/
  due : List Due
  /-- The rest of the input, with the end marker at its end. -/
  input : List Symbol
  /-- The tree grown so far. -/
  tree : Tree
  /-- The number of the next node. -/
  nextNode : Nat

/-- The state before the first step. -/
def Config.initial (start : Symbol) (input : List Symbol) : Config :=
  ⟨[⟨start, 0⟩], input, .leaf 0 start, 1⟩

/-- The stack from its bottom. -/
def Config.stack (endSymbol : Symbol) (c : Config) : List Symbol :=
  endSymbol :: (c.due.map Due.symbol).reverse

/-- The symbols of a body with the numbers of their leaves. -/
def dueFrom (node : Nat) : List Symbol → List Due
  | [] => []
  | s :: rest => ⟨s, node⟩ :: dueFrom (node + 1) rest

/-- Expands the leaf of the symbol on top, which has been taken off the stack. A rule without a
body gives it the empty marker for its only child. -/
def expand (c : Config) (node : Nat) (rest : List Due) (p : Production) : Config :=
  let shown := if p.isEpsilon then [epsilon] else p.body
  { c with
    due := dueFrom c.nextNode p.body ++ rest
    tree := c.tree.graft node (Tree.leavesFrom c.nextNode shown)
    nextNode := c.nextNode + shown.length }

/-- The move with the end marker on top. -/
def finish (c : Config) : Moment Config :=
  ⟨if c.input.length = 1 then .accept else .terminalMismatch, c⟩

/-- One step. -/
def step (g : Grammar) (table : Table) (endSymbol : Symbol) (c : Config) : Moment Config :=
  match c.due with
  | [] => finish c
  | top :: rest =>
    let current := c.input.headD endSymbol
    if top.symbol = endSymbol then finish c
    else if !g.isNonTerminal top.symbol then
      if top.symbol = current then
        ⟨.matched top.symbol, { c with due := rest, input := c.input.tail }⟩
      else ⟨.terminalMismatch, c⟩
    else
      match table.get? (.nonTerminal top.symbol) current with
      | none => ⟨.noEntry, c⟩
      | some entry =>
        match entry.primary.production? with
        | none => ⟨.invalidEntry entry, c⟩
        | some p =>
          if p.lhs = top.symbol then ⟨.expanded p, expand c top.node rest p⟩
          else ⟨.invalidEntry entry, c⟩

end TableParsing.Predictive
