import TableParsing.History
import TableParsing.Item.Closure
import TableParsing.Table.ShiftReduce

/-!
# Canonical collections

The states of a shift-reduce automaton, found breadth first. State 0 is the closure of the item of
the added start symbol. A state that is processed gets a transition on each symbol that is after a
dot in one of its items; the transition leads to the state with the items of the goto, which is
created if there is none.

The number of a state is its place in the list. Lists of items are compared as sets of items,
whatever the numbers of the items are.

Every state is a set of dotted rules with lookaheads, so two to the number of these bounds the
number of states (`stateBound`); the construction stops long before, when all states have been
processed.
-/

namespace TableParsing

namespace Collection

/-- An event of the construction. -/
inductive Event where
  /-- State 0 has been made from the production of the added start symbol. -/
  | initialised (production : Production)
  /-- A state is about to be processed. -/
  | processing (state : Nat)
  /-- The items after a symbol have been computed. -/
  | computed (state : Nat) (symbol : Symbol)
  /-- A transition to a known state has been added. -/
  | linked (state : Nat) (symbol : Symbol) (target : Nat)
  /-- A state and the transition to it have been added. -/
  | created (state : Nat) (symbol : Symbol) (target : Nat)
  /-- All states have been processed. -/
  | completed
deriving DecidableEq, Repr

/-- How an event is presented. -/
def Event.caption : Event → Caption
  | .initialised p =>
    ⟨"Initialized State 0 (Closure of " ++ p.lhs ++ " -> ." ++ p.rhs.headD "" ++ ")", none, none,
      none⟩
  | .processing state => ⟨"Processing State " ++ toString state, none, some state, none⟩
  | .computed state symbol =>
    ⟨"Calculated Goto(State " ++ toString state ++ ", '" ++ symbol ++ "')", some symbol,
      some state, none⟩
  | .linked state symbol target =>
    ⟨"Linked State " ++ toString state ++ " --(" ++ symbol ++ ")--> Existing State " ++
      toString target, some symbol, some state, some target⟩
  | .created state symbol target =>
    ⟨"Created New State " ++ toString target ++ ". Linked State " ++ toString state ++ " --(" ++
      symbol ++ ")--> State " ++ toString target, some symbol, some state, some target⟩
  | .completed => ⟨"Canonical Collection construction complete.", none, none, none⟩

/-- The events of a part of the construction, each with the states after it, and the states after
all of them. -/
structure Progress where
  /-- The events and the states after each. -/
  steps : List (Event × List State)
  /-- The states at the end. -/
  states : List State

/-- The state with the given items, if there is one. -/
def find? (states : List State) (items : List NumberedItem) : Option Nat :=
  states.findIdx? fun state => NumberedItem.sameItems state.items items

/-- Adds a transition to one of the states. -/
def link (states : List State) (source : Nat) (symbol : Symbol) (target : Nat) : List State :=
  states.modify source fun state =>
    { state with transitions := state.transitions.insert symbol (target : Int) }

/-- Adds the transitions of a state on some symbols, and the states they lead to. -/
def addTransitions (system : ItemSystem) (source : Nat) (items : List NumberedItem) :
    List Symbol → List State → Progress
  | [], states => ⟨[], states⟩
  | symbol :: symbols, states =>
    let reached := system.goto items symbol
    let step : Event × List State :=
      match find? states reached with
      | some target => (.linked source symbol target, link states source symbol target)
      | none =>
        (.created source symbol states.length,
          link (states ++ [⟨states.length, reached, .empty⟩]) source symbol states.length)
    let later := addTransitions system source items symbols step.2
    ⟨(.computed source symbol, states) :: step :: later.steps, later.states⟩

/-- Processes the states from one place on, at most as many as the bound says. -/
def process (system : ItemSystem) : (bound : Nat) → (place : Nat) → List State → Progress
  | 0, _, states => ⟨[], states⟩
  | bound + 1, place, states =>
    match states[place]? with
    | none => ⟨[], states⟩
    | some state =>
      let own := addTransitions system place state.items (NumberedItem.expected state.items) states
      let later := process system bound (place + 1) own.states
      ⟨(.processing place, states) :: own.steps ++ later.steps, later.states⟩

/-- The number of sets of dotted rules with lookaheads: the places for a dot are those of the
rules and the two of the added start production, and the lookaheads are the terminals and the end
marker. -/
def stateBound (g : Grammar) : Nat :=
  Nat.pow 2
    (((g.rules.flatMap Rule.body).length + g.rules.length + 2) * (g.terminals.length + 1))

/-- State 0 before it is processed. -/
def firstState (system : ItemSystem) : State :=
  ⟨0, system.start (if system.hasLookahead then some endMarker else none), .empty⟩

/-- Builds the states of the automaton. -/
def construct (system : ItemSystem) : Progress :=
  let start := [firstState system]
  let built := process system (stateBound system.grammar) 0 start
  ⟨(.initialised system.grammar.augmentedProduction, start) :: built.steps ++
    [(.completed, built.states)], built.states⟩

end Collection

/-- The states of a shift-reduce automaton with the table that they give. -/
structure Collection where
  /-- The algorithm that the table is for. -/
  algorithm : Algorithm
  /-- The production of the added start symbol. -/
  augmented : Production
  /-- The states by their numbers. -/
  states : List State
  /-- The parsing table. -/
  table : Table
  /-- The construction step by step. -/
  history : History Collection.Event (List State)

/-- Builds the states and the table of a grammar for an algorithm. -/
def Collection.build (g : Grammar) (sets : FirstFollow) (algorithm : Algorithm) :
    Except Failure Collection :=
  match ItemSystem.ofAlgorithm g sets algorithm with
  | .error failure => .error failure
  | .ok system =>
    let built := construct system
    (Table.shiftReduce g sets algorithm g.augmentedProduction built.states).map fun table =>
      { algorithm := algorithm
        augmented := g.augmentedProduction
        states := built.states
        table := table
        history := .ofSteps built.steps }

end TableParsing
