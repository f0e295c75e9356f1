import TableParsing.Proofs.Derivation.Rightmost
import TableParsing.Proofs.Derivation.Tree

/-!
# Sentences and their trees

A sentence is a word that the start symbol derives. Where every non-terminal derives a word, so does
every form (`Productive.exists_word`), and then the terminals at the front of a form that the start
symbol derives are the beginning of a sentence (`Productive.exists_isSentence`).

A form that derives a word is the roots of complete derivation trees with that word for their yield
(`exists_forest_of_derives`). Such trees can be unfolded from the last one to the first, so what
derives a word derives it by rightmost steps as well (`Derives.rightDerives`).
-/

namespace TableParsing.Grammar

variable {g : Grammar} {u v w x : List Symbol}

/-- A word that the start symbol derives. -/
structure IsSentence (g : Grammar) (w : List Symbol) : Prop where
  /-- The start symbol derives it. -/
  derives : g.Derives [g.startSymbol] w
  /-- It consists of terminals. -/
  isWord : g.IsWord w

/-- Every non-terminal derives a word. -/
def Productive (g : Grammar) : Prop :=
  ∀ s ∈ g.nonTerminals, ∃ w, g.IsWord w ∧ g.Derives [s] w

namespace Productive

/-- Every form derives a word. -/
theorem exists_word (h : g.Productive) :
    (u : List Symbol) → g.IsForm u → ∃ w, g.IsWord w ∧ g.Derives u w
  | [], _ => ⟨[], isWord_nil, .refl []⟩
  | s :: u, hu => by
      obtain ⟨w, hw, hderives⟩ : ∃ w, g.IsWord w ∧ g.Derives [s] w := by
        rcases hu s List.mem_cons_self with hn | hterminal
        · exact h s (isNonTerminal_iff.mp hn)
        · refine ⟨[s], fun t ht => ?_, .refl [s]⟩
          exact List.mem_singleton.mp ht ▸ hterminal
      obtain ⟨v, hv, hrest⟩ := h.exists_word u fun t ht => hu t (List.mem_cons_of_mem _ ht)
      exact ⟨w ++ v, isWord_append.mpr ⟨hw, hv⟩, hderives.append hrest⟩

/-- The terminals at the front of a derived form are the beginning of a sentence. -/
theorem exists_isSentence (h : g.Productive) (hderives : g.Derives [g.startSymbol] (u ++ x))
    (hu : ∀ s ∈ u, g.isNonTerminal s = false) : ∃ v, g.IsSentence (u ++ v) := by
  have hform := g.isForm_startSymbol.derives hderives
  rw [isForm_append] at hform
  obtain ⟨v, hv, hrest⟩ := h.exists_word x hform.2
  refine ⟨v, hderives.trans ((Derives.refl u).append hrest), ?_⟩
  exact isWord_append.mpr ⟨hform.1.isWord hu, hv⟩

end Productive

/-! ## Trees of derivations -/

/-- Complete trees whose roots are a body stand below the left-hand side of the rule. -/
theorem exists_node (hε : g.isNonTerminal epsilon = false) {r : Rule} (hr : r ∈ g.rules)
    {trees : List Tree} (hlabels : trees.map Tree.label = r.body)
    (htrees : ∀ t ∈ trees, t.IsComplete g) :
    ∃ t : Tree, t.IsComplete g ∧ t.label = r.lhs ∧ t.yield = trees.flatMap Tree.yield := by
  by_cases hbody : r.body = []
  · -- The tree shows the empty marker below its root.
    have hnil : trees = [] := List.map_eq_nil_iff.mp (hlabels.trans hbody)
    have hshown : [Tree.leaf 0 epsilon].map Tree.label = r.shown := by
      rw [Rule.shown_of_body_nil hbody]
      rfl
    refine ⟨.node 0 r.lhs [.leaf 0 epsilon], .node 0 hr hshown fun t ht => ?_, rfl, ?_⟩
    · rw [List.mem_singleton.mp ht]
      exact .leaf 0 hε
    · rw [Tree.yield_node (List.cons_ne_nil _ _), hnil]
      simp
  · have hshown : trees.map Tree.label = r.shown := by
      rw [Rule.shown_of_body_ne_nil hbody, hlabels]
    refine ⟨.node 0 r.lhs trees, .node 0 hr hshown htrees, rfl, ?_⟩
    exact Tree.yield_node (Tree.IsDerivation.children_ne_nil hshown) 0 r.lhs

/-- A word is the yield of leaves. -/
theorem IsWord.exists_leaves (hw : g.IsWord w) :
    ∃ trees : List Tree, (∀ t ∈ trees, t.IsComplete g) ∧ trees.map Tree.label = w ∧
      trees.flatMap Tree.yield = w := by
  refine ⟨w.map (Tree.leaf 0), fun t ht => ?_, ?_, ?_⟩
  · obtain ⟨s, hs, rfl⟩ := List.mem_map.mp ht
    exact .leaf 0 (hw.not_isNonTerminal s hs)
  · rw [List.map_map]
    exact List.map_id w
  · rw [List.flatMap_map]
    calc
      w.flatMap (fun s => (Tree.leaf 0 s).yield) = w.flatMap fun s => [s] := by
        apply List.flatMap_congr
        intro s hs
        rw [Tree.yield_leaf, if_neg (mem_terminals.mp (hw s hs)).2.1]
      _ = w := List.flatMap_singleton' w

/-- Complete trees below the form after a step come together to complete trees below the form before
it, with the same yield. -/
theorem exists_forest_of_step (hε : g.isNonTerminal epsilon = false) (hstep : g.Step u v)
    {trees : List Tree} (htrees : ∀ t ∈ trees, t.IsComplete g)
    (hlabels : trees.map Tree.label = v) :
    ∃ others : List Tree, (∀ t ∈ others, t.IsComplete g) ∧ others.map Tree.label = u ∧
      others.flatMap Tree.yield = trees.flatMap Tree.yield := by
  cases hstep with
  | @rewrite before after r hr =>
      rw [List.map_eq_append_iff] at hlabels
      obtain ⟨front, behind, rfl, hfront, hbehind⟩ := hlabels
      rw [List.map_eq_append_iff] at hfront
      obtain ⟨left, middle, rfl, hleft, hmiddle⟩ := hfront
      obtain ⟨t, ht, hlabel, hyield⟩ := exists_node hε hr hmiddle fun t ht =>
        htrees t (by simp [ht])
      refine ⟨left ++ t :: behind, ?_, ?_, ?_⟩
      · intro s hs
        rw [List.mem_append, List.mem_cons] at hs
        rcases hs with hs | rfl | hs
        · exact htrees s (by simp [hs])
        · exact ht
        · exact htrees s (by simp [hs])
      · rw [List.map_append, List.map_cons, hleft, hlabel, hbehind]
      · simp [hyield]

/-- A form that derives a word is the roots of complete trees that yield the word. -/
theorem exists_forest_of_derives (hε : g.isNonTerminal epsilon = false) (hw : g.IsWord w)
    (h : g.Derives u w) :
    ∃ trees : List Tree, (∀ t ∈ trees, t.IsComplete g) ∧ trees.map Tree.label = u ∧
      trees.flatMap Tree.yield = w := by
  induction h using Relation.ReflTransGen.head_induction_on with
  | refl => exact hw.exists_leaves
  | head hstep _ ih =>
      obtain ⟨trees, htrees, hlabels, hyield⟩ := ih
      obtain ⟨others, hothers, hlabels', hyield'⟩ :=
        exists_forest_of_step hε hstep htrees hlabels
      exact ⟨others, hothers, hlabels', hyield'.trans hyield⟩

/-- Every form is the roots of complete trees, if all non-terminals derive words. -/
theorem Productive.exists_forest (h : g.Productive) (hε : g.isNonTerminal epsilon = false)
    (hu : g.IsForm u) :
    ∃ trees : List Tree, (∀ t ∈ trees, t.IsComplete g) ∧ trees.map Tree.label = u := by
  obtain ⟨w, hw, hderives⟩ := h.exists_word u hu
  obtain ⟨trees, htrees, hlabels, -⟩ := exists_forest_of_derives hε hw hderives
  exact ⟨trees, htrees, hlabels⟩

/-- A sentence is the yield of a complete derivation tree of the start symbol. -/
theorem IsSentence.exists_tree (hε : g.isNonTerminal epsilon = false) (h : g.IsSentence w) :
    ∃ t : Tree, t.IsComplete g ∧ t.label = g.startSymbol ∧ t.yield = w := by
  obtain ⟨trees, htrees, hlabels, hyield⟩ := exists_forest_of_derives hε h.isWord h.derives
  obtain ⟨t, rfl, hlabel⟩ := List.map_eq_singleton_iff.mp hlabels
  refine ⟨t, htrees t List.mem_cons_self, hlabel, ?_⟩
  rwa [List.flatMap_singleton] at hyield

/-! ## Rightmost derivations of words -/

/-- Trees side by side are unfolded from the last one to the first. -/
theorem rightDerives_forest :
    (trees : List Tree) → (∀ t ∈ trees, t.IsComplete g ∧ g.RightDerives [t.label] t.yield) →
      g.RightDerives (trees.map Tree.label) (trees.flatMap Tree.yield)
  | [], _ => .refl []
  | t :: trees, h => by
      have htrees : ∀ u ∈ trees, u.IsComplete g ∧ g.RightDerives [u.label] u.yield :=
        fun u hu => h u (List.mem_cons_of_mem _ hu)
      have hbehind : ∀ s ∈ trees.flatMap Tree.yield, g.isNonTerminal s = false := by
        intro s hs
        obtain ⟨u, hu, hmem⟩ := List.mem_flatMap.mp hs
        exact (htrees u hu).1.not_isNonTerminal_of_mem_yield hmem
      have hrest := (rightDerives_forest trees htrees).context [t.label]
        (isWord_nil (g := g)).not_isNonTerminal
      have hfirst := (h t List.mem_cons_self).2.context [] hbehind
      rw [List.append_nil, List.append_nil] at hrest
      exact hrest.trans hfirst

/-- A complete derivation tree is unfolded by rightmost steps. -/
theorem rightDerives_tree (hε : g.isNonTerminal epsilon = false) {t : Tree}
    (h : t.IsComplete g) : t.label ≠ epsilon → g.RightDerives [t.label] t.yield := by
  induction h with
  | leaf id hs =>
      intro hne
      rw [Tree.label_leaf] at hne ⊢
      rw [Tree.yield_leaf, if_neg hne]
      exact .refl _
  | @node id r hr children hlabels hchildren ih =>
      intro _
      have hbody := Tree.map_label_bodyTrees hlabels
      have hforest := rightDerives_forest (g := g) (Tree.bodyTrees r children) fun u hu => by
        have hmem := Tree.mem_of_mem_bodyTrees hu
        refine ⟨hchildren u hmem, ih u hmem ?_⟩
        apply Rule.ne_epsilon_of_mem_body (r := r)
        rw [← hbody]
        exact List.mem_map_of_mem hu
      rw [hbody, Tree.flatMap_yield_bodyTrees hε hlabels hchildren] at hforest
      rw [Tree.label_node, Tree.yield_node (Tree.IsDerivation.children_ne_nil hlabels)]
      exact ((RightDerives.refl _).tail (.of_rule hr)).trans hforest

/-- What derives a word derives it by rightmost steps. -/
theorem Derives.rightDerives (hε : g.isNonTerminal epsilon = false) (hu : g.IsForm u)
    (hw : g.IsWord w) (h : g.Derives u w) : g.RightDerives u w := by
  obtain ⟨trees, htrees, rfl, rfl⟩ := exists_forest_of_derives hε hw h
  apply rightDerives_forest
  intro t ht
  refine ⟨htrees t ht, rightDerives_tree hε (htrees t ht) ?_⟩
  exact ne_epsilon_of_isNonTerminal_or_mem_terminals hε (hu t.label (List.mem_map_of_mem ht))

/-! ## A small grammar -/

/-- Nested brackets may end at once. -/
theorem productive_nested : nested.Productive := by
  intro s hs
  have hs : s = "S" := by simpa [nested, nonTerminals, distinct, distinctBy] using hs
  subst hs
  refine ⟨[], isWord_nil, ?_⟩
  exact Derives.of_rule (g := nested) (r := ⟨"S", ["ε"]⟩) (by decide)

end TableParsing.Grammar
