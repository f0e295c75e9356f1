import TableParsing.Machine.Basic
import TableParsing.Table.Basic

/-!
# The shift-reduce machine

The stack holds the symbols that have been recognised, each with its tree and with the state
reached after it. A shift reads the next symbol of the input; a reduction takes the body of a
production off the stack and puts its left-hand side there, with the state to which the goto of
the uncovered state leads.

Below the symbols lies state 0 with the end marker, which is never taken off. A table may ask for
a shift at the end of the input; what is read then is the end marker, again and again.
-/

namespace TableParsing.ShiftReduce

/-- A symbol on the stack. -/
structure Frame where
  /-- The state reached after the symbol. -/
  state : Int
  /-- The symbol. -/
  symbol : Symbol
  /-- What has been recognised as the symbol. -/
  tree : Tree
deriving Repr

/-- The state of the machine. -/
structure Config where
  /-- The symbols on the stack, the last one first. -/
  frames : List Frame
  /-- The rest of the input, with the end marker at its end. -/
  input : List Symbol
  /-- The number of the next node. -/
  nextNode : Nat

namespace Config

/-- The state before the first step. -/
def initial (input : List Symbol) : Config := ⟨[], input, 0⟩

/-- The state reached after some symbols on the stack. -/
def stateAfter : List Frame → Int
  | [] => 0
  | frame :: _ => frame.state

/-- The state on top of the stack. -/
def state (c : Config) : Int := stateAfter c.frames

/-- The states on the stack from its bottom. -/
def states (c : Config) : List Int := 0 :: (c.frames.map Frame.state).reverse

/-- The symbols on the stack from its bottom. -/
def symbols (endSymbol : Symbol) (c : Config) : List Symbol :=
  endSymbol :: (c.frames.map Frame.symbol).reverse

/-- The trees on the stack from its bottom. -/
def forest (c : Config) : List Tree := (c.frames.map Frame.tree).reverse

end Config

/-- The children of the node that a reduction makes: the trees of the body, or the empty marker
for a rule without a body. -/
def handle (c : Config) (p : Production) : List Tree :=
  if p.isEpsilon then [.leaf c.nextNode epsilon]
  else ((c.frames.take p.body.length).map Frame.tree).reverse

/-- Reduces by a production. -/
def reduce (table : Table) (c : Config) (p : Production) : Moment Config :=
  if c.frames.length < p.body.length then ⟨.underflow p, c⟩
  else
    let below := c.frames.drop p.body.length
    let node := if p.isEpsilon then c.nextNode + 1 else c.nextNode
    match (table.get? (.state (Config.stateAfter below)) p.lhs).map Action.primary with
    | some (.goto target) =>
      ⟨.reduced p,
        { c with
          frames := ⟨target, p.lhs, .node node p.lhs (handle c p)⟩ :: below
          nextNode := node + 1 }⟩
    | _ => ⟨.gotoError p, { c with frames := below, nextNode := node }⟩

/-- One step. -/
def step (table : Table) (endSymbol : Symbol) (c : Config) : Moment Config :=
  let current := c.input.headD endSymbol
  match (table.get? (.state c.state) current).map Action.primary with
  | none => ⟨.noTransition, c⟩
  | some (.shift target) =>
    ⟨.shifted current target,
      { frames := ⟨target, current, .leaf c.nextNode current⟩ :: c.frames
        input := c.input.tail
        nextNode := c.nextNode + 1 }⟩
  | some (.reduce p) => reduce table c p
  | some .accept => ⟨if c.input.length = 1 then .accept else .noTransition, c⟩
  | some _ => ⟨.invalidAction, c⟩

end TableParsing.ShiftReduce
