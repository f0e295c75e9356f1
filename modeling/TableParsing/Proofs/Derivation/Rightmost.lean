import TableParsing.Proofs.Derivation
import TableParsing.Proofs.Grammar.Augmented

/-!
# Rightmost derivations

In a rightmost step only terminals stand behind the replaced symbol (`Grammar.RightStep`). Such a
step may be made behind any symbols and before terminals (`RightDerives.context`).

What is derived from symbols of a grammar consists of symbols of the grammar (`IsForm.derives`). In
particular the added start symbol does not come up again, so the rightmost derivations of the
grammar with its added rule are those from the start symbol with one step put in front
(`rightDerives_augmented_iff`).
-/

namespace TableParsing.Grammar

variable {g : Grammar} {u v w x : List Symbol}

/-! ## Forms and words -/

/-- A list of non-terminals and terminals of the grammar. -/
def IsForm (g : Grammar) (u : List Symbol) : Prop :=
  ∀ s ∈ u, g.isNonTerminal s = true ∨ s ∈ g.terminals

/-- A list of terminals of the grammar. -/
def IsWord (g : Grammar) (w : List Symbol) : Prop := ∀ s ∈ w, s ∈ g.terminals

/-- No symbols are a word. -/
@[simp] theorem isWord_nil : g.IsWord [] := fun _ hs => absurd hs List.not_mem_nil

@[simp] theorem isForm_append : g.IsForm (u ++ v) ↔ g.IsForm u ∧ g.IsForm v := by
  simp [IsForm, or_imp, forall_and]

@[simp] theorem isWord_append : g.IsWord (u ++ v) ↔ g.IsWord u ∧ g.IsWord v := by
  simp [IsWord, or_imp, forall_and]

/-- The symbols of a word have no rules. -/
theorem IsWord.not_isNonTerminal (h : g.IsWord w) : ∀ s ∈ w, g.isNonTerminal s = false :=
  fun s hs => not_isNonTerminal_of_mem_terminals (h s hs)

/-- A form without non-terminals is a word. -/
theorem IsForm.isWord (h : g.IsForm u) (hu : ∀ s ∈ u, g.isNonTerminal s = false) :
    g.IsWord u := by
  intro s hs
  apply (h s hs).resolve_left
  rw [hu s hs]
  exact Bool.false_ne_true

/-- The start symbol is a form. -/
theorem isForm_startSymbol (g : Grammar) : g.IsForm [g.startSymbol] := by
  intro s hs
  rw [List.mem_singleton.mp hs]
  exact Or.inl g.isNonTerminal_startSymbol

/-- A body is a form. -/
theorem isForm_body {r : Rule} (hr : r ∈ g.rules) : g.IsForm r.body :=
  fun _ hs => isNonTerminal_or_mem_terminals hr hs

/-- A step leads from forms to forms. -/
theorem IsForm.step (hu : g.IsForm u) (h : g.Step u v) : g.IsForm v := by
  cases h with
  | rewrite before after hr =>
      rw [isForm_append] at hu
      have hafter : g.IsForm after := fun s hs => hu.2 s (List.mem_cons_of_mem _ hs)
      simp only [isForm_append]
      exact ⟨⟨hu.1, isForm_body hr⟩, hafter⟩

/-- What a form derives is a form. -/
theorem IsForm.derives (hu : g.IsForm u) (h : g.Derives u v) : g.IsForm v := by
  induction h with
  | refl => exact hu
  | tail _ hstep ih => exact ih.step hstep

/-- The added start symbol is in no form. -/
theorem IsForm.augmentedStart_not_mem (hu : g.IsForm u) : g.augmentedStart ∉ u := by
  intro hmem
  rcases hu _ hmem with hn | hterminal
  · rw [g.not_isNonTerminal_augmentedStart] at hn
    exact Bool.noConfusion hn
  · exact g.augmentedStart_not_mem_terminals hterminal

/-! ## Rightmost steps -/

/-- One step of a rightmost derivation: the symbols behind the replaced one have no rules. -/
inductive RightStep (g : Grammar) : List Symbol → List Symbol → Prop
  | rewrite (before after : List Symbol) {r : Rule} (hr : r ∈ g.rules)
      (hafter : ∀ s ∈ after, g.isNonTerminal s = false) :
      RightStep g (before ++ r.lhs :: after) (before ++ r.body ++ after)

/-- A sentential form derives another in any number of rightmost steps. -/
def RightDerives (g : Grammar) : List Symbol → List Symbol → Prop :=
  Relation.ReflTransGen g.RightStep

/-- A rightmost step is a step. -/
theorem RightStep.step (h : g.RightStep u v) : g.Step u v := by
  cases h with
  | rewrite before after hr _ => exact .rewrite before after hr

/-- The left-hand side of a rule is replaced by its body. -/
theorem RightStep.of_rule {r : Rule} (hr : r ∈ g.rules) : g.RightStep [r.lhs] r.body := by
  have hstep := RightStep.rewrite (g := g) [] [] hr fun s hs => absurd hs List.not_mem_nil
  rwa [List.nil_append, List.nil_append, List.append_nil] at hstep

/-- A rightmost step behind any symbols and before symbols without rules. -/
theorem RightStep.context (h : g.RightStep u v) (x : List Symbol) {y : List Symbol}
    (hy : ∀ s ∈ y, g.isNonTerminal s = false) : g.RightStep (x ++ u ++ y) (x ++ v ++ y) := by
  cases h with
  | @rewrite before after r hr hafter =>
      have hbehind : ∀ s ∈ after ++ y, g.isNonTerminal s = false := by
        intro s hs
        rcases List.mem_append.mp hs with hs | hs
        · exact hafter s hs
        · exact hy s hs
      have hstep := RightStep.rewrite (x ++ before) (after ++ y) hr hbehind
      simpa only [List.append_assoc, List.cons_append] using hstep

namespace RightDerives

/-- Every form derives itself. -/
theorem refl (u : List Symbol) : g.RightDerives u u := Relation.ReflTransGen.refl

/-- Rightmost derivations follow one another. -/
theorem trans (h : g.RightDerives u v) (h' : g.RightDerives v w) : g.RightDerives u w :=
  Relation.ReflTransGen.trans h h'

/-- A rightmost step added at the end of a rightmost derivation. -/
theorem tail (h : g.RightDerives u v) (h' : g.RightStep v w) : g.RightDerives u w :=
  Relation.ReflTransGen.tail h h'

/-- A rightmost derivation is a derivation. -/
theorem derives (h : g.RightDerives u v) : g.Derives u v := by
  induction h with
  | refl => exact .refl _
  | tail _ hstep ih => exact ih.trans (.of_step hstep.step)

/-- A rightmost derivation behind any symbols and before symbols without rules. -/
theorem context (h : g.RightDerives u v) (x : List Symbol) {y : List Symbol}
    (hy : ∀ s ∈ y, g.isNonTerminal s = false) : g.RightDerives (x ++ u ++ y) (x ++ v ++ y) := by
  induction h with
  | refl => exact refl _
  | tail _ hstep ih => exact ih.tail (hstep.context x hy)

end RightDerives

/-! ## The grammar with its added rule -/

/-- The grammar in which the added start symbol is rewritten to the start symbol. -/
def augmented (g : Grammar) : Grammar where
  rules := g.augmentedProduction.toRule :: g.rules
  rules_ne_nil := List.cons_ne_nil _ _
  skipped := g.skipped

/-- The added start symbol is rewritten besides the non-terminals. -/
theorem isNonTerminal_augmented {s : Symbol} :
    g.augmented.isNonTerminal s = true ↔ s = g.augmentedStart ∨ g.isNonTerminal s = true := by
  simp only [isNonTerminal, augmented, List.any_cons, Bool.or_eq_true, decide_eq_true_eq]
  exact or_congr eq_comm Iff.rfl

/-- The symbols of a word have no rules in the grammar with its added rule either. -/
theorem IsWord.not_isNonTerminal_augmented (h : g.IsWord w) :
    ∀ s ∈ w, g.augmented.isNonTerminal s = false := by
  intro s hs
  rw [← Bool.not_eq_true, isNonTerminal_augmented, not_or, Bool.not_eq_true]
  refine ⟨?_, h.not_isNonTerminal s hs⟩
  rintro rfl
  exact g.augmentedStart_not_mem_terminals (h _ hs)

/-- A rule that rewrites the added start symbol is the added one. -/
theorem eq_of_mem_augmented {r : Rule} (hr : r ∈ g.augmented.rules)
    (hlhs : r.lhs = g.augmentedStart) : r = g.augmentedProduction.toRule := by
  rcases List.mem_cons.mp hr with rfl | hr
  · rfl
  · exact absurd hlhs (lhs_ne_of_not_isNonTerminal g.not_isNonTerminal_augmentedStart hr)

/-- Any other rule is one of the grammar. -/
theorem mem_rules_of_mem_augmented {r : Rule} (hr : r ∈ g.augmented.rules)
    (hlhs : r.lhs ≠ g.augmentedStart) : r ∈ g.rules := by
  rcases List.mem_cons.mp hr with rfl | hr
  · exact absurd rfl hlhs
  · exact hr

/-- A rightmost derivation from a form is one of the grammar with its added rule. -/
theorem RightDerives.augmented (hu : g.IsForm u) (h : g.RightDerives u v) :
    g.augmented.RightDerives u v := by
  induction h with
  | refl => exact .refl _
  | @tail v w hprevious hstep ih =>
      have hv : g.IsForm v := hu.derives (RightDerives.derives hprevious)
      apply ih.tail
      cases hstep with
      | @rewrite before after r hr hafter =>
          refine .rewrite before after (List.mem_cons_of_mem _ hr) fun s hs => ?_
          rw [← Bool.not_eq_true, isNonTerminal_augmented, not_or, Bool.not_eq_true]
          refine ⟨?_, hafter s hs⟩
          rintro rfl
          apply hv.augmentedStart_not_mem
          exact List.mem_append_right _ (List.mem_cons_of_mem _ hs)

/-- A rule for a symbol of the first form, or of a form that the start symbol derives rightmost, is
the added one, or else one of the grammar. -/
theorem rule_cases_augmented {r : Rule} (hr : r ∈ g.augmented.rules) {before after : List Symbol}
    (h : before ++ r.lhs :: after = [g.augmentedStart] ∨
      g.RightDerives [g.startSymbol] (before ++ r.lhs :: after)) :
    (before = [] ∧ after = [] ∧ r = g.augmentedProduction.toRule) ∨
      (r ∈ g.rules ∧ g.RightDerives [g.startSymbol] (before ++ r.lhs :: after)) := by
  rcases h with hstart | hderives
  · left
    obtain ⟨rfl, hlhs, rfl⟩ : before = [] ∧ r.lhs = g.augmentedStart ∧ after = [] := by
      simpa [List.append_eq_singleton_iff] using hstart
    exact ⟨rfl, rfl, eq_of_mem_augmented hr hlhs⟩
  · right
    have hform := g.isForm_startSymbol.derives hderives.derives
    refine ⟨mem_rules_of_mem_augmented hr fun heq => ?_, hderives⟩
    apply hform.augmentedStart_not_mem
    simp [heq]

/-- What the added start symbol derives rightmost is that symbol itself, or what the start symbol
derives rightmost. -/
theorem rightDerives_augmented_iff (hε : g.isNonTerminal epsilon = false) :
    g.augmented.RightDerives [g.augmentedStart] u ↔
      u = [g.augmentedStart] ∨ g.RightDerives [g.startSymbol] u := by
  have hbody : g.augmentedProduction.toRule.body = [g.startSymbol] := body_augmentedProduction hε
  constructor
  · intro h
    induction h with
    | refl => exact Or.inl rfl
    | tail _ hstep ih =>
        right
        cases hstep with
        | @rewrite before after r hr hafter =>
            rcases rule_cases_augmented hr ih with ⟨rfl, rfl, rfl⟩ | ⟨hr, hderives⟩
            · rw [hbody]
              exact .refl _
            · refine hderives.tail (.rewrite before after hr fun s hs => ?_)
              have hnone := hafter s hs
              rw [← Bool.not_eq_true, isNonTerminal_augmented, not_or] at hnone
              simpa using hnone.2
  · rintro (rfl | h)
    · exact .refl _
    · have hfirst : g.augmented.RightStep [g.augmentedStart] [g.startSymbol] := by
        rw [← hbody]
        exact RightStep.of_rule (g := g.augmented) (r := g.augmentedProduction.toRule)
          List.mem_cons_self
      exact (RightDerives.tail (.refl _) hfirst).trans (h.augmented g.isForm_startSymbol)

end TableParsing.Grammar
