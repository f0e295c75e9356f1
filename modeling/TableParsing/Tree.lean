import TableParsing.Symbol

/-!
# Parse trees

A node has a number, the symbol that it stands for, and its children from left to right. Nodes are
numbered in the order in which a machine makes them, so a number names one node of a run. A tree
grows by giving children to a leaf, which is named by its number (`graft`).
-/

namespace TableParsing

/-- A parse tree, complete or still growing. -/
inductive Tree where
  | node (id : Nat) (label : Symbol) (children : List Tree)
deriving Repr

namespace Tree

/-- The tree that is a single node. -/
def leaf (id : Nat) (label : Symbol) : Tree := .node id label []

/-- The number of the root. -/
def id : Tree → Nat
  | .node id _ _ => id

/-- The symbol of the root. -/
def label : Tree → Symbol
  | .node _ label _ => label

/-- Leaves for some symbols, numbered from a given number on. -/
def leavesFrom (id : Nat) : List Symbol → List Tree
  | [] => []
  | s :: rest => .leaf id s :: leavesFrom (id + 1) rest

mutual

/-- The symbols of the leaves from left to right. -/
def leaves : Tree → List Symbol
  | .node _ label [] => [label]
  | .node _ _ (child :: rest) => leaves child ++ forestLeaves rest

/-- The symbols of the leaves of trees that stand side by side. -/
def forestLeaves : List Tree → List Symbol
  | [] => []
  | tree :: rest => leaves tree ++ forestLeaves rest

end

mutual

/-- The tree with new children for the node of a given number. -/
def graft (target : Nat) (grown : List Tree) : Tree → Tree
  | .node id label children =>
    if id = target then .node id label grown
    else .node id label (graftAll target grown children)

/-- The trees with new children for the node of a given number. -/
def graftAll (target : Nat) (grown : List Tree) : List Tree → List Tree
  | [] => []
  | tree :: rest => graft target grown tree :: graftAll target grown rest

end

end Tree

end TableParsing
