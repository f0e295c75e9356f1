import TableParsing.Proofs.Machine.Records
import TableParsing.Proofs.ShiftReduce.Step
import TableParsing.Proofs.Tree

/-!
# The stacks of the shift-reduce machine

The machine has a state, a symbol and a tree for each place of its stack. Whatever its table asks
for, the trees have the symbols for their roots, no two of their nodes have the same number, and
their leaves are the symbols that have been shifted, up to empty markers (`Stacked`). A shift adds a
leaf, and a reduction puts the trees that it takes off the stack under one node (`Stacked.step`).

The one exception is a reduction without a goto: what it has taken off the stack is lost, and so are
the leaves. The run ends there.
-/

namespace TableParsing

/-! ## Numbers of forests -/

namespace Tree

/-- The numbers of some trees are different, and smaller than the next one. -/
structure NumberedBelow (next : Nat) (trees : List Tree) : Prop where
  /-- The numbers have been given already. -/
  lt : ∀ n ∈ trees.flatMap numbers, n < next
  /-- No number occurs twice. -/
  nodup : (trees.flatMap numbers).Nodup

/-- No trees have no numbers. -/
theorem NumberedBelow.nil (next : Nat) : NumberedBelow next [] :=
  ⟨fun _ hn => absurd hn List.not_mem_nil, List.nodup_nil⟩

namespace NumberedBelow

variable {next : Nat} {below above children : List Tree}

/-- Some of the trees. -/
theorem left (h : NumberedBelow next (below ++ above)) : NumberedBelow next below := by
  obtain ⟨hlt, hnodup⟩ := h
  rw [List.flatMap_append] at hlt hnodup
  exact ⟨fun n hn => hlt n (List.mem_append_left _ hn), hnodup.of_append_left⟩

/-- The last trees are put under a node with the next number. -/
theorem node (h : NumberedBelow next (below ++ children)) (s : Symbol) :
    NumberedBelow (next + 1) (below ++ [.node next s children]) := by
  obtain ⟨hlt, hnodup⟩ := h
  rw [List.flatMap_append] at hlt hnodup
  constructor
  · intro n hn
    rw [List.flatMap_append, List.flatMap_singleton, numbers_node, List.mem_append,
      List.mem_cons] at hn
    rcases hn with hn | rfl | hn
    · exact (hlt n (List.mem_append_left _ hn)).trans (Nat.lt_succ_self next)
    · exact Nat.lt_succ_self n
    · exact (hlt n (List.mem_append_right _ hn)).trans (Nat.lt_succ_self next)
  · rw [List.flatMap_append, List.flatMap_singleton, numbers_node, List.nodup_middle]
    exact List.nodup_cons.mpr ⟨fun hn => Nat.lt_irrefl next (hlt next hn), hnodup⟩

/-- A leaf with the next number. -/
theorem leaf (h : NumberedBelow next below) (s : Symbol) :
    NumberedBelow (next + 1) (below ++ [.leaf next s]) := by
  have hnode : NumberedBelow next (below ++ []) := by rwa [List.append_nil]
  exact hnode.node s

end NumberedBelow

end Tree

namespace ShiftReduce

/-! ## Frames and trees -/

section frames

variable {c : Config} {p : Production}

/-- The tree of a frame stands behind those of the frames below it. -/
@[simp] theorem treesOf_cons (frame : Frame) (below : List Frame) :
    treesOf (frame :: below) = treesOf below ++ [frame.tree] := by
  rw [treesOf, treesOf, List.map_cons, List.reverse_cons]

/-- The trees of the stack are those of the frames below and those of the frames on top. -/
theorem treesOf_drop_append_take (frames : List Frame) (count : Nat) :
    treesOf (frames.drop count) ++ treesOf (frames.take count) = treesOf frames := by
  rw [treesOf, treesOf, treesOf, ← List.reverse_append, ← List.map_append, List.take_append_drop]

/-- The roots of the trees are the symbols, if this holds of each frame. -/
theorem map_label_treesOf_of_label {frames : List Frame}
    (h : ∀ frame ∈ frames, frame.tree.label = frame.symbol) :
    (treesOf frames).map Tree.label = symbolsOf frames := by
  rw [treesOf, symbolsOf, List.map_reverse, List.map_map]
  exact congrArg List.reverse (List.map_congr_left h)

/-- A reduction makes its node from at least one tree, so the node is no leaf. -/
theorem handle_ne_nil (hdepth : p.body.length ≤ c.frames.length) : handle c p ≠ [] := by
  unfold handle
  split
  · exact List.cons_ne_nil _ _
  · next hbody =>
      have hne : p.body ≠ [] := by simpa [Rule.isEpsilon] using hbody
      have hpos := List.length_pos_iff.mpr hne
      intro hnil
      have hlength := congrArg List.length hnil
      rw [List.length_reverse, List.length_map, List.length_take, List.length_nil] at hlength
      omega

/-- The children of a reduction yield what the frames that it takes off do. -/
theorem flatMap_yield_handle (c : Config) (p : Production) :
    (handle c p).flatMap Tree.yield =
      (treesOf (c.frames.take p.body.length)).flatMap Tree.yield := by
  unfold handle
  split
  · next hnil =>
      rw [List.isEmpty_iff.mp hnil, List.length_nil, List.take_zero]
      simp [treesOf]
  · rfl

/-- The children of a reduction have numbers of their own: they are trees of the stack, or a new
leaf. -/
theorem numberedBelow_handle (h : Tree.NumberedBelow c.nextNode (treesOf c.frames))
    (p : Production) :
    Tree.NumberedBelow (nodeNumber c p) (treesOf (c.frames.drop p.body.length) ++ handle c p) := by
  unfold nodeNumber handle
  split
  · next hnil =>
      rw [List.isEmpty_iff.mp hnil, List.length_nil, List.drop_zero]
      exact h.leaf epsilon
  · rwa [← treesOf, treesOf_drop_append_take]

end frames

/-! ## The invariant -/

/-- The stacks of a record belong together and to what has been read by then. -/
structure Stacked (read : List Symbol) (moment : Moment Config) : Prop where
  /-- The root of each tree is the symbol beside it. -/
  label : ∀ frame ∈ moment.config.frames, frame.tree.label = frame.symbol
  /-- No number occurs twice. -/
  numbered : Tree.NumberedBelow moment.config.nextNode (treesOf moment.config.frames)
  /-- The leaves are what has been read, as long as nothing has been lost. -/
  yield : (∀ p, moment.move ≠ .gotoError p) →
    (treesOf moment.config.frames).flatMap Tree.yield = read.filter (· ≠ epsilon)

namespace Stacked

variable {table : Table} {endSymbol : Symbol} {read : List Symbol} {moment : Moment Config}

/-- At the beginning the stacks are empty. -/
theorem initial (move : Move) (input : List Symbol) :
    Stacked [] ⟨move, Config.initial input⟩ where
  label := fun _ hf => absurd hf List.not_mem_nil
  numbered := .nil 0
  yield := fun _ => rfl

/-- Nothing has been lost before the end of the run. -/
theorem yield_of_outcome (h : Stacked read moment) (ho : moment.move.outcome? = none) :
    (treesOf moment.config.frames).flatMap Tree.yield = read.filter (· ≠ epsilon) := by
  apply h.yield
  intro p hmove
  rw [hmove] at ho
  cases ho

/-- Another move with the same stacks, which reads nothing. -/
theorem withMove (h : Stacked read moment) (ho : moment.move.outcome? = none) (move : Move) :
    Stacked read ⟨move, moment.config⟩ :=
  ⟨h.label, h.numbered, fun _ => h.yield_of_outcome ho⟩

/-- A shift puts the next symbol on the stack, with a leaf of its own. -/
theorem shifted (h : Stacked read moment) (ho : moment.move.outcome? = none) (s : Symbol)
    (next : Int) (input : List Symbol) :
    Stacked (read ++ [s])
      ⟨.shifted s next,
        { frames := ⟨next, s, .leaf moment.config.nextNode s⟩ :: moment.config.frames
          input := input
          nextNode := moment.config.nextNode + 1 }⟩ where
  label := by
    intro frame hf
    rcases List.mem_cons.mp hf with rfl | hf
    · rfl
    · exact h.label frame hf
  numbered := by
    rw [treesOf_cons]
    exact h.numbered.leaf s
  yield := by
    intro _
    rw [treesOf_cons, List.flatMap_append, h.yield_of_outcome ho, List.flatMap_singleton,
      Tree.yield_leaf, List.filter_append]
    by_cases hs : s = epsilon <;> simp [hs]

/-- A reduction puts the trees that it takes off the stack under one node. -/
theorem reduced (h : Stacked read moment) (ho : moment.move.outcome? = none) {p : Production}
    (hdepth : p.body.length ≤ moment.config.frames.length) (next : Int) :
    Stacked read
      ⟨.reduced p,
        { moment.config with
          frames := ⟨next, p.lhs,
            .node (nodeNumber moment.config p) p.lhs (handle moment.config p)⟩ ::
              moment.config.frames.drop p.body.length
          nextNode := nodeNumber moment.config p + 1 }⟩ where
  label := by
    intro frame hf
    rcases List.mem_cons.mp hf with rfl | hf
    · rfl
    · exact h.label frame (List.mem_of_mem_drop hf)
  numbered := by
    rw [treesOf_cons]
    exact (numberedBelow_handle h.numbered p).node p.lhs
  yield := by
    intro _
    rw [treesOf_cons, List.flatMap_append, List.flatMap_singleton,
      Tree.yield_node (handle_ne_nil hdepth), flatMap_yield_handle, ← List.flatMap_append,
      treesOf_drop_append_take, h.yield_of_outcome ho]

/-- A reduction without a goto leaves the frames below the body. -/
theorem gotoError (h : Stacked read moment) (p : Production) :
    Stacked read
      ⟨.gotoError p,
        { moment.config with
          frames := moment.config.frames.drop p.body.length
          nextNode := nodeNumber moment.config p }⟩ where
  label := fun frame hf => h.label frame (List.mem_of_mem_drop hf)
  numbered := (numberedBelow_handle h.numbered p).left
  yield := fun hmove => absurd rfl (hmove p)

/-- **Stacks of a step**: every step leaves stacks that belong together, on any table. -/
theorem step (h : Stacked read moment) (ho : moment.move.outcome? = none) :
    Stacked (read ++ readBy [(step table endSymbol moment.config).move])
      (step table endSymbol moment.config) := by
  have heffect := step_effect table endSymbol moment.config
  revert heffect
  generalize ShiftReduce.step table endSymbol moment.config = next
  intro heffect
  cases heffect with
  | shifted => exact h.shifted ho _ _ _
  | reduced _ hdepth =>
      rw [show readBy [Move.reduced _] = [] from rfl, List.append_nil]
      exact h.reduced ho hdepth _
  | gotoError =>
      rw [show readBy [Move.gotoError _] = [] from rfl, List.append_nil]
      exact h.gotoError _
  | underflow | accept | unfinished | noTransition | invalidAction =>
      exact (List.append_nil read).symm ▸ h.withMove ho _

end Stacked

end ShiftReduce

end TableParsing
