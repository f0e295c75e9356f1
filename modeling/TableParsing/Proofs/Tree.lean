import Mathlib
import TableParsing.Tree

/-!
# Trees, their leaves and their numbers

The measures of a tree that say what a parse tree stands for: the symbols of its leaves without the
empty markers (`yield`), the nodes that have children (`inner`, `innerCount`), and the tree with all
numbers forgotten (`unnumbered`), by which trees are compared up to the names of their nodes.

The second half is about growing a tree at a leaf. A node is found by its number, so the laws of
`graft` speak of the numbers of all nodes (`numbers`), of the leaves with their numbers
(`frontier`) and of the nodes with children (`inner`), which are all of the form `listing`. If the
target is not an inner node, grafting replaces the target in the frontier by the frontier of what
is grown there (`frontier_graft`), and adds the new numbers to the old ones (`numbers_graft`).
-/

namespace TableParsing.Tree

variable {β : Type}

/-- Induction on trees, with one hypothesis for each child. -/
@[elab_as_elim]
theorem induct {P : Tree → Prop}
    (node : ∀ id label children, (∀ child ∈ children, P child) → P (.node id label children))
    (t : Tree) : P t := by
  refine Tree.rec (motive_1 := P) (motive_2 := fun ts => ∀ t ∈ ts, P t) node ?_ ?_ t
  · intro t ht
    exact absurd ht List.not_mem_nil
  · intro t ts ht hts u hu
    rcases List.mem_cons.mp hu with rfl | hu
    · exact ht
    · exact hts u hu

@[simp] theorem label_node (id : Nat) (label : Symbol) (children : List Tree) :
    (node id label children).label = label := rfl

@[simp] theorem label_leaf (id : Nat) (s : Symbol) : (leaf id s).label = s := rfl

/-! ## Listings -/

mutual

/-- What the nodes of a tree list, from the root down; a node adds what `f` gives for its number,
its label and whether it is a leaf. -/
def listing (f : Nat → Symbol → Bool → List β) : Tree → List β
  | .node id label children => f id label children.isEmpty ++ forestListing f children

/-- What the nodes of trees that stand side by side list. -/
def forestListing (f : Nat → Symbol → Bool → List β) : List Tree → List β
  | [] => []
  | tree :: rest => listing f tree ++ forestListing f rest

end

/-- The numbers of all nodes. -/
def numbers : Tree → List Nat := listing fun id _ _ => [id]

/-- The leaves from left to right, each with its number. -/
def frontier : Tree → List (Nat × Symbol) :=
  listing fun id label isLeaf => if isLeaf then [(id, label)] else []

/-- The numbers of the nodes with children. -/
def inner : Tree → List Nat := listing fun id _ isLeaf => if isLeaf then [] else [id]

/-- The number of nodes with children. -/
def innerCount (t : Tree) : Nat := t.inner.length

theorem forestListing_eq (f : Nat → Symbol → Bool → List β) :
    (ts : List Tree) → forestListing f ts = ts.flatMap (listing f)
  | [] => rfl
  | t :: ts => by rw [forestListing, forestListing_eq f ts, List.flatMap_cons]

/-- A listing names the root before the nodes below it. -/
theorem listing_node (f : Nat → Symbol → Bool → List β) (id : Nat) (label : Symbol)
    (children : List Tree) :
    listing f (node id label children) =
      f id label children.isEmpty ++ children.flatMap (listing f) := by
  rw [listing, forestListing_eq]

/-- Flattening keeps permutations of a joint listing: the two parts of each element may be
collected apart. -/
theorem flatMap_append_perm {α : Type} (f g h : α → List β) :
    (xs : List α) → (∀ x ∈ xs, (f x).Perm (g x ++ h x)) →
      (xs.flatMap f).Perm (xs.flatMap g ++ xs.flatMap h)
  | [], _ => .refl _
  | x :: xs, hx => by
      have ih := flatMap_append_perm f g h xs fun y hy => hx y (List.mem_cons_of_mem _ hy)
      simp only [List.flatMap_cons]
      calc
        (f x ++ xs.flatMap f).Perm ((g x ++ h x) ++ (xs.flatMap g ++ xs.flatMap h)) :=
          (hx x List.mem_cons_self).append ih
        _ = g x ++ (h x ++ xs.flatMap g) ++ xs.flatMap h := by simp only [List.append_assoc]
        List.Perm _ (g x ++ (xs.flatMap g ++ h x) ++ xs.flatMap h) :=
          (List.perm_append_comm.append_left _).append_right _
        _ = (g x ++ xs.flatMap g) ++ (h x ++ xs.flatMap h) := by simp only [List.append_assoc]

@[simp] theorem numbers_node (id : Nat) (label : Symbol) (children : List Tree) :
    (node id label children).numbers = id :: children.flatMap numbers :=
  listing_node _ id label children

@[simp] theorem numbers_leaf (id : Nat) (s : Symbol) : (leaf id s).numbers = [id] :=
  numbers_node id s []

@[simp] theorem frontier_leaf (id : Nat) (s : Symbol) : (leaf id s).frontier = [(id, s)] :=
  listing_node _ id s []

/-- The frontier of a tree with children is that of the children. -/
theorem frontier_node {children : List Tree} (h : children ≠ []) (id : Nat) (label : Symbol) :
    (node id label children).frontier = children.flatMap frontier := by
  rw [frontier, listing_node, if_neg (by simpa using h), List.nil_append]

@[simp] theorem inner_leaf (id : Nat) (s : Symbol) : (leaf id s).inner = [] :=
  listing_node _ id s []

/-- A node with children is listed before the inner nodes below it. -/
theorem inner_node {children : List Tree} (h : children ≠ []) (id : Nat) (label : Symbol) :
    (node id label children).inner = id :: children.flatMap inner := by
  rw [inner, listing_node, if_neg (by simpa using h), List.singleton_append]

/-- Every node is a leaf or has children. -/
theorem numbers_perm (t : Tree) : t.numbers.Perm (t.frontier.map Prod.fst ++ t.inner) := by
  induction t using induct with
  | node id label children ih =>
      by_cases h : children = []
      · subst h
        exact .refl _
      · have hforest := flatMap_append_perm numbers (fun t => t.frontier.map Prod.fst) inner
          children ih
        rw [numbers_node, frontier_node h, inner_node h, List.map_flatMap]
        exact (hforest.cons id).trans List.perm_middle.symm

/-! ## The yield -/

/-- The symbols of the leaves without the empty markers. -/
def yield (t : Tree) : List Symbol := t.leaves.filter (· ≠ epsilon)

/-- The leaves of a forest are those of its trees. -/
theorem forestLeaves_eq : (ts : List Tree) → forestLeaves ts = ts.flatMap leaves
  | [] => rfl
  | t :: ts => by rw [forestLeaves, forestLeaves_eq ts, List.flatMap_cons]

@[simp] theorem leaves_leaf (id : Nat) (s : Symbol) : (leaf id s).leaves = [s] := by
  rw [leaf, leaves]

/-- The leaves of a tree with children are those of the children. -/
theorem leaves_node {children : List Tree} (h : children ≠ []) (id : Nat) (label : Symbol) :
    (node id label children).leaves = children.flatMap leaves := by
  cases children with
  | nil => exact absurd rfl h
  | cons child rest => rw [leaves, forestLeaves_eq, List.flatMap_cons]

/-- The frontier without its numbers is the list of leaves. -/
theorem map_snd_frontier (t : Tree) : t.frontier.map Prod.snd = t.leaves := by
  induction t using induct with
  | node id label children ih =>
      by_cases h : children = []
      · subst h
        rw [leaves]
        rfl
      · rw [frontier_node h, leaves_node h, List.map_flatMap]
        exact List.flatMap_congr ih

@[simp] theorem yield_leaf (id : Nat) (s : Symbol) :
    (leaf id s).yield = if s = epsilon then [] else [s] := by
  by_cases h : s = epsilon <;> simp [yield, h]

/-- The yield of a tree with children is that of the children in a row. -/
theorem yield_node {children : List Tree} (h : children ≠ []) (id : Nat) (label : Symbol) :
    (node id label children).yield = children.flatMap yield := by
  rw [yield, leaves_node h, List.filter_flatMap]
  rfl

/-- The number of moves that a machine makes for a tree: one for each symbol of the yield and one
for each node with children. -/
def moveCount (t : Tree) : Nat := t.yield.length + t.innerCount

/-- The moves for a tree with children are those for the children and one more. -/
theorem moveCount_node {children : List Tree} (h : children ≠ []) (id : Nat) (label : Symbol) :
    (node id label children).moveCount = (children.map moveCount).sum + 1 := by
  have hsum : (ts : List Tree) →
      (ts.map moveCount).sum = (ts.flatMap yield).length + (ts.flatMap inner).length := by
    intro ts
    induction ts with
    | nil => rfl
    | cons t ts ih =>
        simp only [List.map_cons, List.sum_cons, List.flatMap_cons, List.length_append, ih,
          moveCount, innerCount]
        omega
  rw [moveCount, innerCount, yield_node h, inner_node h, hsum, List.length_cons]
  omega

/-! ## Trees without numbers -/

mutual

/-- The tree with all its numbers forgotten. -/
def unnumbered : Tree → Tree
  | .node _ label children => .node 0 label (unnumberedAll children)

/-- Trees with all their numbers forgotten. -/
def unnumberedAll : List Tree → List Tree
  | [] => []
  | tree :: rest => unnumbered tree :: unnumberedAll rest

end

theorem unnumberedAll_eq : (ts : List Tree) → unnumberedAll ts = ts.map unnumbered
  | [] => rfl
  | t :: ts => by rw [unnumberedAll, unnumberedAll_eq ts, List.map_cons]

/-- Forgetting the numbers of a tree node by node. -/
@[simp] theorem unnumbered_node (id : Nat) (label : Symbol) (children : List Tree) :
    (node id label children).unnumbered = node 0 label (children.map unnumbered) := by
  rw [unnumbered, unnumberedAll_eq]

@[simp] theorem unnumbered_leaf (id : Nat) (s : Symbol) : (leaf id s).unnumbered = leaf 0 s :=
  unnumbered_node id s []

/-! ## Growing at a leaf -/

theorem graftAll_eq (target : Nat) (grown : List Tree) :
    (ts : List Tree) → graftAll target grown ts = ts.map (graft target grown)
  | [] => rfl
  | t :: ts => by rw [graftAll, graftAll_eq target grown ts, List.map_cons]

/-- The target gets its new children. -/
theorem graft_node_self (target : Nat) (grown : List Tree) (label : Symbol)
    (children : List Tree) :
    graft target grown (node target label children) = node target label grown := by
  rw [graft, if_pos rfl]

/-- The search for the target goes on below any other node. -/
theorem graft_node_of_ne {id target : Nat} (h : id ≠ target) (grown : List Tree) (label : Symbol)
    (children : List Tree) :
    graft target grown (node id label children) =
      node id label (children.map (graft target grown)) := by
  rw [graft, if_neg h, graftAll_eq]

/-- Growing a tree keeps the symbol of its root. -/
@[simp] theorem label_graft (target : Nat) (grown : List Tree) (t : Tree) :
    (graft target grown t).label = t.label := by
  obtain ⟨id, label, children⟩ := t
  rw [graft]
  split <;> rfl

/-- A node above the target keeps its children's count, so it stays an inner node. -/
theorem not_mem_inner_child {target id : Nat} {label : Symbol} {children : List Tree}
    (hn : children ≠ []) (h : target ∉ (node id label children).inner) :
    id ≠ target ∧ ∀ child ∈ children, target ∉ child.inner := by
  rw [inner_node hn, List.mem_cons, not_or] at h
  refine ⟨Ne.symm h.1, fun child hc ht => h.2 ?_⟩
  exact List.mem_flatMap.mpr ⟨child, hc, ht⟩

/-- In the frontier the target is replaced by the leaves of what is grown there. -/
theorem frontier_graft {target : Nat} {grown : List Tree} (hg : grown ≠ []) (t : Tree) :
    target ∉ t.inner →
      (graft target grown t).frontier =
        t.frontier.flatMap fun leaf =>
          if leaf.1 = target then grown.flatMap frontier else [leaf] := by
  induction t using induct with
  | node id label children ih =>
      intro h
      by_cases hn : children = []
      · subst hn
        show _ = [(id, label)].flatMap _
        by_cases hid : id = target
        · subst hid
          simp [graft_node_self, frontier_node hg]
        · rw [graft_node_of_ne hid, List.flatMap_singleton, if_neg hid]
          rfl
      · obtain ⟨hid, hc⟩ := not_mem_inner_child hn h
        rw [graft_node_of_ne hid, frontier_node hn, frontier_node (by simpa using hn),
          List.flatMap_map, List.flatMap_assoc]
        exact List.flatMap_congr fun child hchild => ih child hchild (hc child hchild)

/-- The numbers of a grown tree are the old ones and, for each place where the target was found,
those of what is grown there. -/
theorem numbers_graft {target : Nat} (grown : List Tree) (t : Tree) :
    target ∉ t.inner →
      (graft target grown t).numbers.Perm
        (t.numbers ++ (t.frontier.filter (·.1 = target)).flatMap fun _ =>
          grown.flatMap numbers) := by
  induction t using induct with
  | node id label children ih =>
      intro h
      by_cases hn : children = []
      · subst hn
        show List.Perm _ ([id] ++ ([(id, label)].filter (·.1 = target)).flatMap _)
        by_cases hid : id = target
        · subst hid
          simp [graft_node_self]
        · simp [graft_node_of_ne hid, hid]
      · obtain ⟨hid, hc⟩ := not_mem_inner_child hn h
        have hforest := flatMap_append_perm (fun t => (graft target grown t).numbers) numbers
          (fun t => (t.frontier.filter (·.1 = target)).flatMap fun _ => grown.flatMap numbers)
          children fun child hchild => ih child hchild (hc child hchild)
        rw [graft_node_of_ne hid, numbers_node, numbers_node, frontier_node hn, List.flatMap_map,
          List.filter_flatMap, List.flatMap_assoc]
        exact hforest.cons id

/-! ### A leaf in its place

Where no number occurs twice, a leaf is at one place of the frontier, and what is grown there takes
that place. -/

section place

variable {t : Tree} {target : Nat} {s : Symbol} {grown : List Tree}

/-- A leaf is not an inner node. -/
theorem not_mem_inner_of_mem_frontier (hn : t.numbers.Nodup) (h : (target, s) ∈ t.frontier) :
    target ∉ t.inner := by
  have hsplit := (numbers_perm t).nodup_iff.mp hn
  intro hinner
  exact (List.nodup_append.mp hsplit).2.2 target (List.mem_map_of_mem (f := Prod.fst) h) target
    hinner rfl

/-- The leaves have numbers of their own. -/
theorem nodup_frontier (hn : t.numbers.Nodup) : (t.frontier.map Prod.fst).Nodup :=
  (List.nodup_append.mp ((numbers_perm t).nodup_iff.mp hn)).1

variable {before after : List (Nat × Symbol)}

/-- The other leaves have other numbers. -/
theorem ne_of_frontier_split (hn : t.numbers.Nodup)
    (h : t.frontier = before ++ (target, s) :: after) :
    ∀ leaf ∈ before ++ after, leaf.1 ≠ target := by
  have hnodup := nodup_frontier hn
  rw [h, List.map_append, List.map_cons] at hnodup
  have hmid := (List.nodup_middle.mp hnodup)
  rw [← List.map_append, List.nodup_cons] at hmid
  rintro leaf hleaf rfl
  exact hmid.1 (List.mem_map.mpr ⟨leaf, hleaf, rfl⟩)

/-- What is grown at a leaf takes its place in the frontier. -/
theorem frontier_graft_split (hn : t.numbers.Nodup) (hg : grown ≠ [])
    (h : t.frontier = before ++ (target, s) :: after) :
    (graft target grown t).frontier = before ++ grown.flatMap frontier ++ after := by
  have hkeep : ∀ leaves : List (Nat × Symbol), (∀ leaf ∈ leaves, leaf.1 ≠ target) →
      (leaves.flatMap fun leaf => if leaf.1 = target then grown.flatMap frontier else [leaf]) =
        leaves := by
    intro leaves hne
    calc
      _ = leaves.flatMap fun leaf => [leaf] :=
        List.flatMap_congr fun leaf hleaf => if_neg (hne leaf hleaf)
      _ = leaves := List.flatMap_singleton' leaves
  have hne := ne_of_frontier_split hn h
  have hmem : (target, s) ∈ t.frontier := by
    rw [h]
    exact List.mem_append_right _ List.mem_cons_self
  rw [frontier_graft hg t (not_mem_inner_of_mem_frontier hn hmem), h, List.flatMap_append,
    List.flatMap_cons, if_pos rfl, hkeep before fun leaf hl => hne leaf (by simp [hl]),
    hkeep after fun leaf hl => hne leaf (by simp [hl]), List.append_assoc]

/-- Growing at a leaf adds the new numbers once. -/
theorem numbers_graft_split (hn : t.numbers.Nodup)
    (h : t.frontier = before ++ (target, s) :: after) :
    (graft target grown t).numbers.Perm (t.numbers ++ grown.flatMap numbers) := by
  have hne := ne_of_frontier_split hn h
  have hmem : (target, s) ∈ t.frontier := by
    rw [h]
    exact List.mem_append_right _ List.mem_cons_self
  have hfilter : t.frontier.filter (·.1 = target) = [(target, s)] := by
    have hnone : ∀ leaves : List (Nat × Symbol), (∀ leaf ∈ leaves, leaf.1 ≠ target) →
        leaves.filter (·.1 = target) = [] := by
      intro leaves hl
      exact List.filter_eq_nil_iff.mpr fun leaf hleaf => by simpa using hl leaf hleaf
    rw [h, List.filter_append, hnone before fun leaf hl => hne leaf (by simp [hl]),
      List.filter_cons_of_pos (by simp), hnone after fun leaf hl => hne leaf (by simp [hl]),
      List.nil_append]
  have hperm := numbers_graft grown t (not_mem_inner_of_mem_frontier hn hmem)
  rwa [hfilter, List.flatMap_singleton] at hperm

end place

/-! ### New leaves -/

@[simp] theorem map_label_leavesFrom (id : Nat) :
    (symbols : List Symbol) → (leavesFrom id symbols).map label = symbols
  | [] => rfl
  | s :: rest => by rw [leavesFrom, List.map_cons, map_label_leavesFrom (id + 1) rest, label_leaf]

/-- New leaves are numbered in a row. -/
theorem flatMap_numbers_leavesFrom (id : Nat) :
    (symbols : List Symbol) →
      (leavesFrom id symbols).flatMap numbers = List.range' id symbols.length
  | [] => rfl
  | s :: rest => by
      rw [leavesFrom, List.flatMap_cons, flatMap_numbers_leavesFrom (id + 1) rest, numbers_leaf,
        List.length_cons, List.range'_succ, List.singleton_append]

/-- New leaves are leaves. -/
theorem exists_leaf_of_mem_leavesFrom {t : Tree} (id : Nat) :
    (symbols : List Symbol) → t ∈ leavesFrom id symbols → ∃ n s, t = leaf n s
  | [], h => absurd h List.not_mem_nil
  | s :: rest, h => by
      rcases List.mem_cons.mp h with rfl | h
      · exact ⟨id, s, rfl⟩
      · exact exists_leaf_of_mem_leavesFrom (id + 1) rest h

end TableParsing.Tree
