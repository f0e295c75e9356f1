import TableParsing.Proofs.Derivation
import TableParsing.Proofs.Tree

/-!
# Derivation trees

In a derivation tree a node with children is the left-hand side of a rule and its children are the
symbols that the rule shows: its body, or the empty marker alone if the body is empty
(`Rule.shown`). A tree is *partial* if its leaves are any symbols and *complete* if no leaf has
rules; both are cases of `Tree.IsDerivation`, which has a condition on leaves as a parameter.

A derivation tree derives its yield from the symbol of its root (`IsDerivation.derives`), and it
stays a derivation tree when a leaf is expanded by a rule (`IsDerivation.graft`).
-/

namespace TableParsing

/-- The symbols below a node that a rule expands: the body, or the empty marker for a rule without
one. -/
def Rule.shown (r : Rule) : List Symbol := if r.isEpsilon then [epsilon] else r.body

namespace Rule

/-- A rule with an empty body shows the empty marker. -/
theorem shown_of_body_nil {r : Rule} (h : r.body = []) : r.shown = [epsilon] := by
  simp [shown, isEpsilon, h]

/-- A rule with a body shows it. -/
theorem shown_of_body_ne_nil {r : Rule} (h : r.body ≠ []) : r.shown = r.body := by
  simp [shown, isEpsilon, h]

/-- A rule shows at least one symbol. -/
theorem shown_ne_nil (r : Rule) : r.shown ≠ [] := by
  by_cases h : r.body = []
  · rw [shown_of_body_nil h]
    exact List.cons_ne_nil _ _
  · rwa [shown_of_body_ne_nil h]

/-- What a rule shows without the empty markers is its body. -/
theorem filter_shown (r : Rule) : r.shown.filter (· ≠ epsilon) = r.body := by
  by_cases h : r.body = []
  · rw [shown_of_body_nil h, h]
    simp
  · rw [shown_of_body_ne_nil h, List.filter_eq_self]
    intro s hs
    simpa using ne_epsilon_of_mem_body hs

end Rule

namespace Tree

variable {g : Grammar} {atLeaf : Symbol → Prop}

/-- A derivation tree of a grammar with a condition on the symbols of its leaves. -/
inductive IsDerivation (g : Grammar) (atLeaf : Symbol → Prop) : Tree → Prop
  | leaf (id : Nat) {s : Symbol} (h : atLeaf s) : IsDerivation g atLeaf (.leaf id s)
  | node (id : Nat) {r : Rule} (hr : r ∈ g.rules) {children : List Tree}
      (hlabels : children.map label = r.shown)
      (hchildren : ∀ child ∈ children, IsDerivation g atLeaf child) :
      IsDerivation g atLeaf (.node id r.lhs children)

/-- A derivation tree that may still grow: its leaves are any symbols. -/
def IsPartial (g : Grammar) (t : Tree) : Prop := t.IsDerivation g fun _ => True

/-- A derivation tree that is finished: none of its leaves has a rule. -/
def IsComplete (g : Grammar) (t : Tree) : Prop :=
  t.IsDerivation g fun s => g.isNonTerminal s = false

namespace IsDerivation

/-- The children that a rule shows are not none. -/
theorem children_ne_nil {r : Rule} {children : List Tree}
    (hlabels : children.map label = r.shown) : children ≠ [] := by
  rintro rfl
  exact r.shown_ne_nil hlabels.symm

/-- A derivation tree satisfies another condition if its leaves do. -/
theorem of_leaves {atLeaf' : Symbol → Prop} {t : Tree} (h : t.IsDerivation g atLeaf)
    (hleaves : ∀ s ∈ t.leaves, atLeaf' s) : t.IsDerivation g atLeaf' := by
  induction h with
  | leaf id hs => exact .leaf id (hleaves _ (by simp))
  | node id hr hlabels _ ih =>
      refine .node id hr hlabels fun child hc => ih child hc fun s hs => hleaves s ?_
      rw [leaves_node (children_ne_nil hlabels)]
      exact List.mem_flatMap.mpr ⟨child, hc, hs⟩

/-- The leaves of a derivation tree satisfy its condition. -/
theorem atLeaf_of_mem_leaves {t : Tree} (h : t.IsDerivation g atLeaf) :
    ∀ s ∈ t.leaves, atLeaf s := by
  induction h with
  | leaf id hs =>
      intro s hmem
      rw [leaves_leaf, List.mem_singleton] at hmem
      exact hmem ▸ hs
  | node id hr hlabels _ ih =>
      intro s hmem
      rw [leaves_node (children_ne_nil hlabels)] at hmem
      obtain ⟨child, hc, hs⟩ := List.mem_flatMap.mp hmem
      exact ih child hc s hs

/-- A tree whose root has no rules is a leaf. -/
theorem eq_leaf {t : Tree} (h : t.IsDerivation g atLeaf) (hs : g.isNonTerminal t.label = false) :
    t = .leaf t.id t.label ∧ atLeaf t.label := by
  cases h with
  | leaf id h => exact ⟨rfl, h⟩
  | node id hr _ _ => exact absurd rfl (Grammar.lhs_ne_of_not_isNonTerminal hs hr)

/-- Expanding a leaf by a rule keeps a derivation tree. -/
theorem graft {target : Nat} {r : Rule} (hr : r ∈ g.rules) {grown : List Tree}
    (hlabels : grown.map label = r.shown) (hgrown : ∀ t ∈ grown, t.IsDerivation g atLeaf)
    {t : Tree} (h : t.IsDerivation g atLeaf) :
    (∀ leaf ∈ t.frontier, leaf.1 = target → leaf.2 = r.lhs) → target ∉ t.inner →
      (t.graft target grown).IsDerivation g atLeaf := by
  induction h with
  | @leaf id s hs =>
      intro hleaf _
      by_cases hid : id = target
      · subst hid
        have hlhs : s = r.lhs := hleaf (id, s) (by simp) rfl
        rw [Tree.leaf, graft_node_self, hlhs]
        exact .node id hr hlabels hgrown
      · rw [Tree.leaf, graft_node_of_ne hid]
        exact .leaf id hs
  | @node id r' hr' children hlabels' _ ih =>
      intro hleaf hinner
      have hn := children_ne_nil hlabels'
      obtain ⟨hid, hc⟩ := not_mem_inner_child hn hinner
      rw [graft_node_of_ne hid]
      refine .node id hr' ?_ ?_
      · rw [List.map_map, ← hlabels']
        exact List.map_congr_left fun child _ => label_graft target grown child
      · intro child' hmem
        obtain ⟨child, hchild, rfl⟩ := List.mem_map.mp hmem
        refine ih child hchild (fun leaf hl => hleaf leaf ?_) (hc child hchild)
        rw [frontier_node hn]
        exact List.mem_flatMap.mpr ⟨child, hchild, hl⟩

end IsDerivation

/-! ## The trees of a body

The children of a node stand for the symbols of a body, unless the body is empty and the only child
shows that. -/

/-- The children that stand for the symbols of the body. -/
def bodyTrees (r : Rule) (children : List Tree) : List Tree :=
  if r.body = [] then [] else children

section bodyTrees

variable {r : Rule} {children : List Tree}

/-- The trees of a body are some of the children. -/
theorem mem_of_mem_bodyTrees {t : Tree} (h : t ∈ bodyTrees r children) : t ∈ children := by
  unfold bodyTrees at h
  split at h
  · exact absurd h List.not_mem_nil
  · exact h

/-- The trees of a body have its symbols for their roots. -/
theorem map_label_bodyTrees (hlabels : children.map label = r.shown) :
    (bodyTrees r children).map label = r.body := by
  unfold bodyTrees
  split
  · next h => exact h.symm
  · next h => rw [hlabels, Rule.shown_of_body_ne_nil h]

/-- The only child of a node without a body is a leaf with the empty marker. -/
theorem IsDerivation.eq_marker (hε : g.isNonTerminal epsilon = false) (hbody : r.body = [])
    (hlabels : children.map label = r.shown)
    (hchildren : ∀ child ∈ children, child.IsDerivation g atLeaf) :
    ∃ id, children = [Tree.leaf id epsilon] := by
  rw [Rule.shown_of_body_nil hbody] at hlabels
  obtain ⟨child, rest, rfl, hlabel, hrest⟩ := List.map_eq_cons_iff.mp hlabels
  obtain rfl := List.map_eq_nil_iff.mp hrest
  have hleaf := ((hchildren child List.mem_cons_self).eq_leaf (by rwa [hlabel])).1
  rw [hlabel] at hleaf
  exact ⟨child.id, congrArg (fun t => [t]) hleaf⟩

/-- The trees of a body have the yield of all children. -/
theorem flatMap_yield_bodyTrees (hε : g.isNonTerminal epsilon = false)
    (hlabels : children.map label = r.shown)
    (hchildren : ∀ child ∈ children, child.IsDerivation g atLeaf) :
    (bodyTrees r children).flatMap yield = children.flatMap yield := by
  unfold bodyTrees
  split
  · next h =>
      obtain ⟨id, rfl⟩ := IsDerivation.eq_marker hε h hlabels hchildren
      simp
  · rfl

/-- The trees of a body have the moves of all children. -/
theorem sum_moveCount_bodyTrees (hε : g.isNonTerminal epsilon = false)
    (hlabels : children.map label = r.shown)
    (hchildren : ∀ child ∈ children, child.IsDerivation g atLeaf) :
    ((bodyTrees r children).map moveCount).sum = (children.map moveCount).sum := by
  unfold bodyTrees
  split
  · next h =>
      obtain ⟨id, rfl⟩ := IsDerivation.eq_marker hε h hlabels hchildren
      simp [moveCount, innerCount]
  · rfl

end bodyTrees

/-- A derivation tree derives its yield from the symbol of its root. -/
theorem IsDerivation.derives (hε : g.isNonTerminal epsilon = false) {t : Tree}
    (h : t.IsDerivation g atLeaf) : t.label ≠ epsilon → g.Derives [t.label] t.yield := by
  induction h with
  | leaf id hs =>
      intro hne
      rw [label_leaf] at hne ⊢
      rw [yield_leaf, if_neg hne]
      exact .refl _
  | @node id r hr children hlabels hchildren ih =>
      intro _
      rw [label_node, yield_node (IsDerivation.children_ne_nil hlabels)]
      apply (Grammar.Derives.of_rule hr).trans
      have hbody := map_label_bodyTrees hlabels
      rw [← hbody, ← flatMap_yield_bodyTrees hε hlabels hchildren, List.flatMap_def]
      apply Grammar.derives_flatten
      rw [List.forall₂_map_left_iff, List.forall₂_map_right_iff, List.forall₂_same]
      intro child hc
      apply ih child (mem_of_mem_bodyTrees hc)
      apply Rule.ne_epsilon_of_mem_body (r := r)
      rw [← hbody]
      exact List.mem_map_of_mem hc

/-- The symbols of the yield of a complete derivation tree have no rules. -/
theorem IsComplete.not_isNonTerminal_of_mem_yield {t : Tree} (h : t.IsComplete g) {s : Symbol}
    (hs : s ∈ t.yield) : g.isNonTerminal s = false :=
  h.atLeaf_of_mem_leaves s (List.mem_filter.mp hs).1

/-- A complete derivation tree with nothing to read has a root with rules, or an empty marker. -/
theorem IsComplete.isNonTerminal_of_yield_nil {t : Tree} (h : t.IsComplete g)
    (hne : t.label ≠ epsilon) (hyield : t.yield = []) : g.isNonTerminal t.label = true := by
  rw [← Bool.not_eq_false]
  intro hs
  rw [(h.eq_leaf hs).1, yield_leaf, if_neg hne] at hyield
  exact List.cons_ne_nil _ _ hyield

/-! ## A small tree -/

/-- The derivation tree of a pair of brackets with nothing between them. -/
def nested : Tree := .node 0 "S" [.leaf 1 "a", .node 2 "S" [.leaf 3 "ε"], .leaf 4 "b"]

/-- The tree belongs to the grammar of nested brackets. -/
theorem isComplete_nested : nested.IsComplete .nested := by
  have hleaf : ∀ id s, Grammar.nested.isNonTerminal s = false →
      (leaf id s).IsComplete .nested := fun id _ hs => .leaf id hs
  have hempty : (node 2 "S" [leaf 3 "ε"]).IsComplete .nested := by
    refine .node 2 (r := ⟨"S", ["ε"]⟩) (by decide) (by decide) fun child hc => ?_
    rw [List.mem_singleton.mp hc]
    exact hleaf 3 "ε" (by decide)
  refine .node 0 (r := ⟨"S", ["a", "S", "b"]⟩) (by decide) (by decide) fun child hc => ?_
  simp only [List.mem_cons, List.not_mem_nil, or_false] at hc
  rcases hc with rfl | rfl | rfl
  · exact hleaf 1 "a" (by decide)
  · exact hempty
  · exact hleaf 4 "b" (by decide)

end Tree

end TableParsing
