import TableParsing.Proofs.Tree

/-!
# Filling in the leaves of a tree

A growing tree and the trees that are still to be grown at its leaves make up one tree (`fill`).
Growing a leaf by one node moves that node from the plan into the tree and leaves what they make
up as it is, up to numbers (`unnumbered_fill_graft`). With nothing left to plan, the tree is the
whole (`fill_none`).
-/

namespace TableParsing.Tree

mutual

/-- The tree with the planned trees in the places of the nodes that they are planned for. -/
def fill (plan : Nat → Option Tree) : Tree → Tree
  | .node id label children => (plan id).getD (.node id label (fillAll plan children))

/-- The trees of a list with the planned trees in their places. -/
def fillAll (plan : Nat → Option Tree) : List Tree → List Tree
  | [] => []
  | tree :: rest => fill plan tree :: fillAll plan rest

end

variable {plan plan' : Nat → Option Tree}

theorem fillAll_eq (plan : Nat → Option Tree) :
    (ts : List Tree) → fillAll plan ts = ts.map (fill plan)
  | [] => rfl
  | t :: ts => by rw [fillAll, fillAll_eq plan ts, List.map_cons]

/-- A planned node is replaced. -/
theorem fill_of_some {id : Nat} {t : Tree} (h : plan id = some t) (label : Symbol)
    (children : List Tree) : fill plan (node id label children) = t := by
  rw [fill, h, Option.getD_some]

/-- A node without a plan stays. -/
theorem fill_of_none {id : Nat} (h : plan id = none) (label : Symbol) (children : List Tree) :
    fill plan (node id label children) = node id label (children.map (fill plan)) := by
  rw [fill, h, Option.getD_none, fillAll_eq]

/-- Without plans a tree is what it is. -/
theorem fill_none (t : Tree) : fill (fun _ => none) t = t := by
  induction t using induct with
  | node id label children ih =>
      rw [fill_of_none rfl, List.map_congr_left ih, List.map_id']

/-- Only the plans for the nodes of a tree matter. -/
theorem fill_congr (t : Tree) :
    (∀ n ∈ t.numbers, plan n = plan' n) → fill plan t = fill plan' t := by
  induction t using induct with
  | node id label children ih =>
      intro h
      rw [numbers_node] at h
      have hid := h id List.mem_cons_self
      have hchildren : children.map (fill plan) = children.map (fill plan') :=
        List.map_congr_left fun child hc => ih child hc fun n hn =>
          h n (List.mem_cons_of_mem _ (List.mem_flatMap.mpr ⟨child, hc, hn⟩))
      rw [fill, fill, fillAll_eq, fillAll_eq, hid, hchildren]

/-- Growing a leaf by the root of the tree that is planned for it leaves the whole as it is, if the
new leaves have the subtrees for their plans. -/
theorem unnumbered_fill_graft {target id' : Nat} {s : Symbol} {grown children' : List Tree}
    (hplan : plan target = some (node id' s children')) (hplan' : plan' target = none)
    (hgrown : (grown.map (fill plan')).map unnumbered = children'.map unnumbered) (t : Tree) :
    (∀ n ∈ t.numbers, n ≠ target → plan' n = plan n) →
      (∀ leaf ∈ t.frontier, leaf.1 = target → leaf.2 = s) → target ∉ t.inner →
        (fill plan' (graft target grown t)).unnumbered = (fill plan t).unnumbered := by
  induction t using induct with
  | node id label children ih =>
      intro hother hleaf hinner
      by_cases hid : id = target
      · subst hid
        have hchildren : children = [] := by
          by_contra hn
          exact (not_mem_inner_child hn hinner).1 rfl
        subst hchildren
        have hlabel : label = s := hleaf (id, label) List.mem_cons_self rfl
        rw [graft_node_self, fill_of_none hplan', fill_of_some hplan, unnumbered_node,
          unnumbered_node, hgrown, hlabel]
      · rw [graft_node_of_ne hid]
        rw [numbers_node] at hother
        have hsame := hother id List.mem_cons_self hid
        cases hp : plan id with
        | some t =>
            rw [fill_of_some (hsame.trans hp), fill_of_some hp]
        | none =>
            rw [fill_of_none (hsame.trans hp), fill_of_none hp, unnumbered_node, unnumbered_node,
              List.map_map, List.map_map, List.map_map]
            by_cases hn : children = []
            · rw [hn]
              rfl
            · rw [frontier_node hn] at hleaf
              have hc := (not_mem_inner_child hn hinner).2
              refine congrArg (node 0 label) (List.map_congr_left fun child hchild => ?_)
              refine ih child hchild (fun n hnum => ?_) (fun leaf hl => ?_) (hc child hchild)
              · exact hother n (List.mem_cons_of_mem _ (List.mem_flatMap.mpr ⟨child, hchild, hnum⟩))
              · exact hleaf leaf (List.mem_flatMap.mpr ⟨child, hchild, hl⟩)

/-- Growing nothing at a leaf changes nothing. -/
theorem graft_nil {target : Nat} (t : Tree) : target ∉ t.inner → graft target [] t = t := by
  induction t using induct with
  | node id label children ih =>
      intro hinner
      by_cases hn : children = []
      · subst hn
        rw [graft]
        split
        · rfl
        · rw [graftAll]
      · obtain ⟨hid, hc⟩ := not_mem_inner_child hn hinner
        rw [graft_node_of_ne hid, List.map_congr_left fun child hchild => ih child hchild
          (hc child hchild), List.map_id']

end TableParsing.Tree
