import TableParsing.Failure
import TableParsing.Grammar.Basic

/-!
# Actions of a parsing table

What a cell of a parsing table tells the machine to do. A conflict keeps all actions that were
entered into one cell, at least two, in the order of their priority: the machine executes the
first.

The main statement on merging is `merge_choices`: the choices of a merged cell are the old ones,
with a new action added at the end if it is not among them, and shifts moved to the front.
-/

namespace TableParsing

/-- An entry of a parsing table. -/
inductive Action where
  /-- Read a symbol and go to a state. -/
  | shift (state : Int)
  /-- Replace the body of a production by its left-hand side. -/
  | reduce (production : Production)
  /-- Go to a state after a reduction. -/
  | goto (state : Int)
  /-- The input is a sentence. -/
  | accept
  /-- Expand the non-terminal of the row by a production. -/
  | predict (production : Production)
  /-- Two actions or more in one cell. -/
  | conflict (first second : Action) (others : List Action)

namespace Action

/-! ## Equality -/

mutual

/-- Whether two actions agree in all parts. -/
def same : Action → Action → Bool
  | .shift m, .shift n => m = n
  | .reduce p, .reduce q => p = q
  | .goto m, .goto n => m = n
  | .accept, .accept => true
  | .predict p, .predict q => p = q
  | .conflict a b cs, .conflict a' b' cs' => same a a' && same b b' && sameAll cs cs'
  | _, _ => false

/-- Whether two lists of actions agree place by place. -/
def sameAll : List Action → List Action → Bool
  | [], [] => true
  | a :: as, b :: bs => same a b && sameAll as bs
  | _, _ => false

end

mutual

theorem same_iff : (a b : Action) → (same a b = true ↔ a = b)
  | .shift m, b => by cases b <;> simp [same]
  | .reduce p, b => by cases b <;> simp [same]
  | .goto m, b => by cases b <;> simp [same]
  | .accept, b => by cases b <;> simp [same]
  | .predict p, b => by cases b <;> simp [same]
  | .conflict a₁ a₂ as, b => by
    cases b with
    | conflict b₁ b₂ bs =>
      simp [same, same_iff a₁ b₁, same_iff a₂ b₂, sameAll_iff as bs, and_assoc]
    | _ => simp [same]

theorem sameAll_iff : (as bs : List Action) → (sameAll as bs = true ↔ as = bs)
  | [], bs => by cases bs <;> simp [sameAll]
  | a :: as, bs => by
    cases bs with
    | nil => simp [sameAll]
    | cons b bs => simp [sameAll, same_iff a b, sameAll_iff as bs]

end

instance : DecidableEq Action := fun a b => decidable_of_iff _ (same_iff a b)

/-! ## Parts -/

/-- A conflict of the given actions, which have to be two or more. -/
def ofAlternatives : List Action → Except Failure Action
  | a :: b :: others => .ok (.conflict a b others)
  | _ => .error .tooFewAlternatives

/-- Whether the action is a conflict. -/
def isConflict : Action → Bool
  | .conflict .. => true
  | _ => false

/-- Whether the action is a shift. -/
def isShift : Action → Bool
  | .shift _ => true
  | _ => false

/-- The actions of a cell: the alternatives of a conflict, or the one action. -/
def choices : Action → List Action
  | .conflict a b others => a :: b :: others
  | action => [action]

/-- The action that a machine executes. -/
def primary : Action → Action
  | .conflict a _ _ => a
  | action => action

/-- The production that the action uses. -/
def production? : Action → Option Production
  | .reduce p => some p
  | .predict p => some p
  | _ => none

mutual

/-- The action as it is shown in a cell. -/
def text : Action → String
  | .shift n => "s" ++ toString n
  | .reduce p => "r(" ++ p.text ++ ")"
  | .goto n => toString n
  | .accept => "acc"
  | .predict p => p.text
  | .conflict a b others => "/".intercalate (text a :: text b :: texts others)

/-- The actions of a list as they are shown. -/
def texts : List Action → List String
  | [] => []
  | a :: as => text a :: texts as

end

/-- The kind of an action. -/
def kind : Action → String
  | .shift _ => "shift"
  | .reduce _ => "reduce"
  | .goto _ => "goto"
  | .accept => "accept"
  | .predict _ => "predict"
  | .conflict .. => "conflict"

/-- The kinds of actions. -/
def kinds : List String := ["shift", "reduce", "goto", "accept", "conflict", "predict"]

/-! ## Merging -/

/-- The shifts of a list before its other actions, each part in its order. -/
def shiftsFirst (actions : List Action) : List Action :=
  actions.filter isShift ++ actions.filter fun a => !a.isShift

/-- One action for a list of them: a conflict if there are several. -/
def ofChoices (default : Action) : List Action → Action
  | a :: b :: others => .conflict a b others
  | [a] => a
  | [] => default

/-- Enters an action into a cell. An action that is already there changes nothing; any other
makes the cell a conflict, or a larger one, with its shifts first. -/
def merge (cell : Option Action) (action : Action) : Action :=
  match cell with
  | none => action
  | some old =>
    if old = action ∨ action ∈ old.choices then old
    else ofChoices action (shiftsFirst (old.choices ++ [action]))

/-! ## Lemmas -/

theorem choices_ne_nil (a : Action) : a.choices ≠ [] := by
  cases a <;> simp [choices]

/-- The action that is executed is the first choice. -/
theorem head_choices (a : Action) : a.choices.head? = some a.primary := by
  cases a <;> rfl

theorem mem_shiftsFirst {a : Action} {actions : List Action} :
    a ∈ shiftsFirst actions ↔ a ∈ actions := by
  simp only [shiftsFirst, List.mem_append, List.mem_filter, Bool.not_eq_true']
  constructor
  · rintro (h | h) <;> exact h.1
  · intro h
    cases hs : a.isShift with
    | true => exact Or.inl ⟨h, rfl⟩
    | false => exact Or.inr ⟨h, rfl⟩

theorem length_shiftsFirst (actions : List Action) :
    (shiftsFirst actions).length = actions.length := by
  induction actions with
  | nil => rfl
  | cons a as ih =>
    simp only [shiftsFirst, List.length_append] at ih ⊢
    cases hs : a.isShift <;> simp [hs] <;> omega

/-- The choices of a merged cell. -/
theorem merge_choices (old action : Action) (h : ¬ (old = action ∨ action ∈ old.choices)) :
    (merge (some old) action).choices = shiftsFirst (old.choices ++ [action]) := by
  have hlen : 2 ≤ (shiftsFirst (old.choices ++ [action])).length := by
    have hpos := List.length_pos_iff.mpr (choices_ne_nil old)
    rw [length_shiftsFirst, List.length_append, List.length_singleton]
    omega
  simp only [merge, if_neg h]
  match hc : shiftsFirst (old.choices ++ [action]), hlen with
  | a :: b :: others, _ => rfl

end Action

end TableParsing
