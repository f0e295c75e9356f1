import TableParsing.Proofs.Grammar.Symbols

/-!
# Derivations

A sentential form is rewritten by replacing one of its non-terminals by the body of a rule
(`Grammar.Step`); `Grammar.Derives` is any number of such steps. In a leftmost step only terminals
stand before the replaced symbol (`Grammar.LeftStep`).

Steps may be made inside a larger form (`Step.context`), so derivations of the parts of a form join
to a derivation of the whole: `Derives.append` for two parts and `derives_flatten` for a list of
them. Conversely the derivation of a whole is one of its parts (`Derives.exists_append`). A leftmost
derivation is a derivation (`LeftDerives.derives`).
-/

namespace TableParsing.Grammar

variable {g : Grammar}

/-! ## Rewriting steps -/

/-- One step of a derivation: a symbol of a sentential form is replaced by the body of one of its
rules. -/
inductive Step (g : Grammar) : List Symbol → List Symbol → Prop
  | rewrite (before after : List Symbol) {r : Rule} (hr : r ∈ g.rules) :
      Step g (before ++ r.lhs :: after) (before ++ r.body ++ after)

/-- One step of a leftmost derivation: the symbols before the replaced one have no rules. -/
inductive LeftStep (g : Grammar) : List Symbol → List Symbol → Prop
  | rewrite {before : List Symbol} (after : List Symbol) {r : Rule} (hr : r ∈ g.rules)
      (hbefore : ∀ s ∈ before, g.isNonTerminal s = false) :
      LeftStep g (before ++ r.lhs :: after) (before ++ r.body ++ after)

/-- A sentential form derives another in any number of steps. -/
def Derives (g : Grammar) : List Symbol → List Symbol → Prop := Relation.ReflTransGen g.Step

/-- A sentential form derives another in any number of leftmost steps. -/
def LeftDerives (g : Grammar) : List Symbol → List Symbol → Prop :=
  Relation.ReflTransGen g.LeftStep

/-- A leftmost step is a step. -/
theorem LeftStep.step {u v : List Symbol} (h : g.LeftStep u v) : g.Step u v := by
  cases h with
  | rewrite after hr _ => exact .rewrite _ after hr

/-- A step inside a larger sentential form. -/
theorem Step.context {u v : List Symbol} (h : g.Step u v) (x y : List Symbol) :
    g.Step (x ++ u ++ y) (x ++ v ++ y) := by
  cases h with
  | rewrite before after hr =>
      have hstep := Step.rewrite (g := g) (x ++ before) (after ++ y) hr
      simpa only [List.append_assoc, List.cons_append] using hstep

/-! ## Derivations of parts and wholes -/

/-- A symbol of two lists side by side is in the one or in the other. -/
theorem append_eq_append_cons {xs ys before after : List Symbol} {s : Symbol}
    (h : xs ++ ys = before ++ s :: after) :
    (∃ middle, xs = before ++ s :: middle ∧ after = middle ++ ys) ∨
      ∃ middle, before = xs ++ middle ∧ ys = middle ++ s :: after := by
  rcases List.append_eq_append_iff.mp h with ⟨middle, hbefore, hys⟩ | ⟨middle, hxs, hrest⟩
  · exact Or.inr ⟨middle, hbefore, hys⟩
  · cases middle with
    | nil => exact Or.inr ⟨[], by simpa using hxs.symm, by simpa using hrest.symm⟩
    | cons t middle =>
        obtain ⟨rfl, rfl⟩ := List.cons_eq_cons.mp hrest
        exact Or.inl ⟨middle, hxs, rfl⟩

namespace Derives

variable {u v w x : List Symbol}

/-- Every form derives itself. -/
theorem refl (u : List Symbol) : g.Derives u u := Relation.ReflTransGen.refl

/-- Derivations follow one another. -/
theorem trans (h : g.Derives u v) (h' : g.Derives v w) : g.Derives u w :=
  Relation.ReflTransGen.trans h h'

/-- A single step is a derivation. -/
theorem of_step (h : g.Step u v) : g.Derives u v := Relation.ReflTransGen.single h

/-- The left-hand side of a rule derives its body. -/
theorem of_rule {r : Rule} (hr : r ∈ g.rules) : g.Derives [r.lhs] r.body := by
  have h := Step.rewrite (g := g) [] [] hr
  simp only [List.nil_append, List.append_nil] at h
  exact of_step h

/-- A derivation inside a larger sentential form. -/
theorem context (h : g.Derives u v) (x y : List Symbol) :
    g.Derives (x ++ u ++ y) (x ++ v ++ y) := by
  induction h with
  | refl => exact refl _
  | tail _ hstep ih => exact ih.trans (of_step (hstep.context x y))

/-- Two forms side by side derive what they derive by themselves. -/
theorem append (h : g.Derives u v) (h' : g.Derives w x) : g.Derives (u ++ w) (v ++ x) := by
  have h₁ : g.Derives (u ++ w) (v ++ w) := by simpa using h.context [] w
  have h₂ : g.Derives (v ++ w) (v ++ x) := by simpa using h'.context v []
  exact h₁.trans h₂

/-- What two forms side by side derive consists of what each of them derives. -/
theorem exists_append (h : g.Derives (u ++ v) w) :
    ∃ left right, w = left ++ right ∧ g.Derives u left ∧ g.Derives v right := by
  generalize hx : u ++ v = x at h
  induction h using Relation.ReflTransGen.head_induction_on generalizing u v with
  | refl => exact ⟨u, v, hx.symm, .refl u, .refl v⟩
  | head hstep _ ih =>
      cases hstep with
      | @rewrite before after r hr =>
          rcases append_eq_append_cons hx with ⟨middle, rfl, rfl⟩ | ⟨middle, rfl, rfl⟩
          · obtain ⟨left, right, hw, hleft, hright⟩ :=
              ih (u := before ++ r.body ++ middle) (v := v) (by simp)
            exact ⟨left, right, hw, (of_step (.rewrite before middle hr)).trans hleft, hright⟩
          · obtain ⟨left, right, hw, hleft, hright⟩ :=
              ih (u := u) (v := middle ++ r.body ++ after) (by simp)
            exact ⟨left, right, hw, hleft, (of_step (.rewrite middle after hr)).trans hright⟩

end Derives

/-- The symbols of a form derive a block each, and the form derives the blocks in a row. -/
theorem derives_flatten {symbols : List Symbol} {blocks : List (List Symbol)}
    (h : List.Forall₂ (fun s block => g.Derives [s] block) symbols blocks) :
    g.Derives symbols blocks.flatten := by
  induction h with
  | nil => exact .refl _
  | cons hs _ ih => simpa using hs.append ih

/-! ## Leftmost derivations -/

namespace LeftDerives

variable {u v w : List Symbol}

/-- Every form derives itself. -/
theorem refl (u : List Symbol) : g.LeftDerives u u := Relation.ReflTransGen.refl

/-- A leftmost step added at the end of a leftmost derivation. -/
theorem tail (h : g.LeftDerives u v) (h' : g.LeftStep v w) : g.LeftDerives u w :=
  Relation.ReflTransGen.tail h h'

/-- A leftmost derivation is a derivation. -/
theorem derives (h : g.LeftDerives u v) : g.Derives u v := by
  induction h with
  | refl => exact .refl _
  | tail _ hstep ih => exact ih.trans (.of_step hstep.step)

end LeftDerives

end TableParsing.Grammar
