import TableParsing.Proofs.FirstFollow.Lookahead
import TableParsing.Proofs.Predictive.Leftmost
import TableParsing.Proofs.Tree.Fill

/-!
# The predictive machine finds every derivation tree

On a predictive table without overwritten cells the machine rebuilds any derivation tree from its
yield, with one step for each token, one for each inner node and one to accept
(`predictive_accepts_yield`).

The proof follows the tree. At every moment some subtrees of it are still ahead, one for each due
symbol (`Ahead`): their yields are the rest of the input, and put in the places of their leaves they
make the growing tree the given one. What comes next in the input is foretold by the root of the
first subtree, or may follow it, so the table has the production of that root in the cell that the
machine looks at (`exists_step_node`).
-/

namespace TableParsing.Predictive

open FirstFollow

variable {g : Grammar}

/-! ## Plans -/

/-- The trees that are ahead, as plans for the leaves of the due symbols. -/
def planFor : List Due → List Tree → Nat → Option Tree
  | d :: due, t :: ahead, n => if d.node = n then some t else planFor due ahead n
  | _, _, _ => none

/-- There are plans for the leaves of due symbols only. -/
theorem planFor_eq_none {n : Nat} :
    (due : List Due) → (ahead : List Tree) → (∀ d ∈ due, d.node ≠ n) → planFor due ahead n = none
  | [], _, _ => rfl
  | _ :: _, [], _ => rfl
  | d :: due, t :: ahead, h => by
      rw [planFor, if_neg (h d List.mem_cons_self)]
      exact planFor_eq_none due ahead fun d' hd => h d' (List.mem_cons_of_mem _ hd)

/-- New due symbols have plans for new numbers only. -/
theorem planFor_dueFrom_of_lt {n : Nat} (rest : List Due) (ahead : List Tree) :
    (id : Nat) → (body : List Symbol) → (children : List Tree) → n < id →
      body.length = children.length →
        planFor (dueFrom id body ++ rest) (children ++ ahead) n = planFor rest ahead n
  | _, [], [], _, _ => rfl
  | _, [], _ :: _, _, h => absurd h (by simp)
  | _, _ :: _, [], _, h => absurd h (by simp)
  | id, s :: body, child :: children, hn, h => by
      rw [dueFrom, List.cons_append, List.cons_append, planFor, if_neg (Nat.ne_of_gt hn)]
      exact planFor_dueFrom_of_lt rest ahead (id + 1) body children (Nat.lt_succ_of_lt hn)
        (Nat.succ.inj h)

/-- The plans for new leaves are the children in their order. -/
theorem map_fill_leavesFrom (rest : List Due) (ahead : List Tree) :
    (id : Nat) → (body : List Symbol) → (children : List Tree) → body.length = children.length →
      (Tree.leavesFrom id body).map
        (Tree.fill (planFor (dueFrom id body ++ rest) (children ++ ahead))) = children
  | _, [], [], _ => rfl
  | _, [], _ :: _, h => absurd h (by simp)
  | _, _ :: _, [], h => absurd h (by simp)
  | id, s :: body, child :: children, h => by
      have ih := map_fill_leavesFrom rest ahead (id + 1) body children (Nat.succ.inj h)
      rw [Tree.leavesFrom, List.map_cons]
      refine congrArg₂ List.cons ?_ ?_
      · refine Tree.fill_of_some ?_ s []
        rw [dueFrom, List.cons_append, List.cons_append, planFor, if_pos rfl]
      · refine (List.map_congr_left fun t ht => Tree.fill_congr t fun n hn => ?_).trans ih
        have hmem : n ∈ (Tree.leavesFrom (id + 1) body).flatMap Tree.numbers :=
          List.mem_flatMap.mpr ⟨t, ht, hn⟩
        rw [Tree.flatMap_numbers_leavesFrom] at hmem
        have hne : id ≠ n := Nat.ne_of_lt (List.mem_range'_1.mp hmem).1
        rw [dueFrom, List.cons_append, List.cons_append, planFor, if_neg hne]

/-! ## Trees ahead -/

/-- Each non-terminal root of a list of trees may be followed by what comes after its tree, with
the end of the input behind the last. -/
def Followed (g : Grammar) : List Tree → Prop
  | [] => True
  | t :: rest =>
    (g.isNonTerminal t.label = true →
      nextAfter rest endMarker ∈ setOf (compute g).follow t.label) ∧ Followed g rest

/-- The children of a node may stand in its place. -/
theorem Followed.append {rest : List Tree} (hrest : Followed g rest) :
    (children : List Tree) →
      (∀ before t after, children = before ++ t :: after → g.isNonTerminal t.label = true →
        nextAfter after (nextAfter rest endMarker) ∈ setOf (compute g).follow t.label) →
        Followed g (children ++ rest)
  | [], _ => hrest
  | child :: children, h => by
      refine ⟨fun hn => ?_, hrest.append children fun before t after hsplit hn => ?_⟩
      · show nextAfter (children ++ rest) endMarker ∈ _
        rw [nextAfter_append]
        exact h [] child children rfl hn
      · exact h (child :: before) t after (by rw [hsplit, List.cons_append]) hn

/-- The configuration has grown a part of the whole tree, and the trees of a list are ahead. -/
structure Ahead (g : Grammar) (whole : Tree) (c : Config) (ahead : List Tree) : Prop where
  /-- The roots of the trees ahead are the due symbols. -/
  labels : ahead.map Tree.label = c.due.map Due.symbol
  /-- The trees ahead are complete derivation trees. -/
  isComplete : ∀ t ∈ ahead, t.IsComplete g
  /-- Their yields are the rest of the input. -/
  input : c.input = ahead.flatMap Tree.yield ++ [endMarker]
  /-- What comes after each of them may follow its root. -/
  followed : Followed g ahead
  /-- In their places they make the grown tree the whole. -/
  whole : (c.tree.fill (planFor c.due ahead)).unnumbered = whole.unnumbered

/-- At the beginning the whole tree is ahead. -/
theorem Ahead.initial {T : Tree} (hT : T.IsComplete g) (hroot : T.label = g.startSymbol) :
    Ahead g T (Config.initial g.startSymbol (T.yield ++ [endMarker])) [T] where
  labels := by
    rw [List.map_singleton, hroot]
    rfl
  isComplete := fun t ht => List.mem_singleton.mp ht ▸ hT
  input := by
    rw [List.flatMap_singleton]
    rfl
  followed := by
    refine ⟨fun _ => ?_, trivial⟩
    rw [hroot, nextAfter_nil]
    exact (followInRange_compute g).start
  whole := congrArg Tree.unnumbered (Tree.fill_of_some (if_pos rfl) _ _)

section steps

variable {tokens consumed : List Symbol} {c : Config} {whole t : Tree} {ahead : List Tree}

/-- The first tree ahead belongs to the symbol on top. -/
theorem Ahead.exists_due (h : Ahead g whole c (t :: ahead)) :
    ∃ top rest, c.due = top :: rest ∧ t.label = top.symbol ∧
      ahead.map Tree.label = rest.map Due.symbol := by
  have hlabels := h.labels.symm
  rw [List.map_cons] at hlabels
  obtain ⟨top, rest, hdue, hlabel, hrest⟩ := List.map_eq_cons_iff.mp hlabels
  exact ⟨top, rest, hdue, hlabel.symm, hrest.symm⟩

/-- Where the leaf of the symbol on top grows by the root of the first tree ahead, the whole stays
the same. -/
theorem Ahead.whole_graft (hl : Leftmost g tokens consumed c) (h : Ahead g whole c (t :: ahead))
    {top : Due} {rest : List Due} (hdue : c.due = top :: rest) {id : Nat} {children : List Tree}
    (ht : t = .node id top.symbol children) {plan : Nat → Option Tree} (grown : List Tree)
    (hplan : ∀ n < c.nextNode, plan n = planFor rest ahead n)
    (hgrown : (grown.map (Tree.fill plan)).map Tree.unnumbered = children.map Tree.unnumbered) :
    ((c.tree.graft top.node grown).fill plan).unnumbered = whole.unnumbered := by
  have htop : top ∈ c.due := by
    rw [hdue]
    exact List.mem_cons_self
  have hold := hl.lt_nextNode _ (hl.toTracks.node_mem_numbers htop)
  have hwhole := h.whole
  rw [hdue] at hwhole
  rw [← hwhole]
  refine Tree.unnumbered_fill_graft (by rw [planFor, if_pos rfl, ht]) ?_ hgrown c.tree ?_
    (hl.toTracks.eq_of_node_eq htop) (hl.toTracks.not_mem_inner htop)
  · rw [hplan _ hold]
    exact planFor_eq_none rest ahead fun d hd => hl.toTracks.node_ne_top hdue hd
  · intro n hn hne
    rw [hplan n (hl.lt_nextNode n hn), planFor, if_neg (Ne.symm hne)]

/-- The machine matches a tree that is a leaf. -/
theorem exists_step_leaf {table : Table} (hl : Leftmost g tokens consumed c)
    (h : Ahead g whole c (t :: ahead)) (hterminal : g.isNonTerminal t.label = false) :
    (step g table endMarker c).move.outcome? = none ∧
      Ahead g whole (step g table endMarker c).config ahead ∧ t.moveCount = 1 := by
  obtain ⟨top, rest, hdue, hlabel, hrest⟩ := h.exists_due
  have htop : top ∈ c.due := by
    rw [hdue]
    exact List.mem_cons_self
  have hend := hl.due_ne_endMarker top htop
  have hleaf := ((h.isComplete t List.mem_cons_self).eq_leaf hterminal).1
  rw [hlabel] at hleaf
  have hinput : c.input = top.symbol :: (ahead.flatMap Tree.yield ++ [endMarker]) := by
    rw [h.input, List.flatMap_cons, hleaf, Tree.yield_leaf, if_neg (hl.due_ne top htop)]
    rfl
  rw [step_of_match hdue hend (hlabel ▸ hterminal) (by rw [hinput, List.headD_cons])]
  refine ⟨rfl, ⟨hrest, ?_, ?_, h.followed.2, ?_⟩, ?_⟩
  · exact fun u hu => h.isComplete u (List.mem_cons_of_mem _ hu)
  · rw [hinput, List.tail_cons]
  · have hgraft := h.whole_graft hl hdue hleaf [] (fun _ _ => rfl) rfl
    rwa [Tree.graft_nil _ (hl.toTracks.not_mem_inner htop)] at hgraft
  · rw [hleaf]
    simp [Tree.moveCount, Tree.innerCount, hl.due_ne top htop]

/-- The new leaves have the children of the root for their plans; the marker of an empty body is
there at once. -/
theorem map_fill_shown (hε : g.isNonTerminal epsilon = false) (hl : Leftmost g tokens consumed c)
    {top : Due} {rest : List Due} (hdue : c.due = top :: rest) {r : Rule} {children : List Tree}
    (hlabels : children.map Tree.label = r.shown) (hchildren : ∀ u ∈ children, u.IsComplete g)
    (ahead : List Tree) :
    ((Tree.leavesFrom c.nextNode r.shown).map (Tree.fill
      (planFor (dueFrom c.nextNode r.body ++ rest) (Tree.bodyTrees r children ++ ahead)))).map
        Tree.unnumbered = children.map Tree.unnumbered := by
  by_cases hnil : r.body = []
  · obtain ⟨id, rfl⟩ := Tree.IsDerivation.eq_marker hε hnil hlabels hchildren
    have hnew : planFor rest ahead c.nextNode = none := by
      refine planFor_eq_none rest ahead fun d hd => Nat.ne_of_lt ?_
      refine hl.lt_nextNode _ (hl.toTracks.node_mem_numbers ?_)
      rw [hdue]
      exact List.mem_cons_of_mem _ hd
    rw [Rule.shown_of_body_nil hnil, Tree.bodyTrees, if_pos hnil, hnil]
    simp [Tree.leavesFrom, dueFrom, Tree.leaf, Tree.fill_of_none hnew]
  · rw [Rule.shown_of_body_ne_nil hnil] at hlabels ⊢
    have hlength := congrArg List.length hlabels
    rw [List.length_map] at hlength
    rw [Tree.bodyTrees, if_neg hnil, map_fill_leavesFrom rest ahead _ _ _ hlength.symm]

/-- The cell that the machine looks at has the production of the root of the first tree ahead. -/
theorem Ahead.get?_of_node (hε : g.isNonTerminal epsilon = false)
    (hclean : (Table.predictive g (compute g)).overwrites = []) {id : Nat} {p : Production}
    (hp : p ∈ g.productions) {children : List Tree} (hlabels : children.map Tree.label = p.shown)
    (hchildren : ∀ u ∈ children, u.IsComplete g)
    (h : Ahead g whole c (.node id p.lhs children :: ahead)) :
    (Table.predictive g (compute g)).get? (.nonTerminal p.lhs) (c.input.headD endMarker) =
      some (.predict p) := by
  have hfollowing := h.followed.1 (Grammar.isNonTerminal_lhs (Grammar.toRule_mem_rules hp))
  rw [h.input, headD_append, nextAfter_cons,
    nextAfter_node (Tree.IsDerivation.children_ne_nil hlabels)]
  exact Table.get?_predictive_of_clean hclean hp
    (lookahead_mem_predicted hε hlabels hchildren hfollowing)

/-- After the root of the first tree ahead its children are ahead. -/
theorem Ahead.expanded (hε : g.isNonTerminal epsilon = false) (hl : Leftmost g tokens consumed c)
    {id : Nat} {p : Production} (hp : p ∈ g.productions) {children : List Tree}
    (hlabels : children.map Tree.label = p.shown) (hchildren : ∀ u ∈ children, u.IsComplete g)
    (h : Ahead g whole c (.node id p.lhs children :: ahead)) {top : Due} {rest : List Due}
    (hdue : c.due = top :: rest) (hlhs : p.lhs = top.symbol)
    (hrest : ahead.map Tree.label = rest.map Due.symbol) :
    Ahead g whole (expand c top.node rest p) (Tree.bodyTrees p.toRule children ++ ahead) where
  labels := by
    show _ = (dueFrom c.nextNode p.body ++ rest).map Due.symbol
    rw [List.map_append, List.map_append, map_symbol_dueFrom, Tree.map_label_bodyTrees hlabels,
      hrest]
  isComplete := by
    intro u hu
    rcases List.mem_append.mp hu with hu | hu
    · exact hchildren u (Tree.mem_of_mem_bodyTrees hu)
    · exact h.isComplete u (List.mem_cons_of_mem _ hu)
  input := by
    show c.input = _
    rw [h.input, List.flatMap_cons, List.flatMap_append,
      Tree.yield_node (Tree.IsDerivation.children_ne_nil hlabels),
      Tree.flatMap_yield_bodyTrees hε hlabels hchildren]
  followed := by
    have hr := Grammar.toRule_mem_rules hp
    have hfollowing := h.followed.1 (Grammar.isNonTerminal_lhs hr)
    apply h.followed.2.append _
    intro before u after hsplit hu
    refine lookahead_mem_follow hε hr (hsplit ▸ Tree.map_label_bodyTrees hlabels)
      (fun v hv => ?_) hu hfollowing
    refine hchildren v (Tree.mem_of_mem_bodyTrees (r := p.toRule) ?_)
    rw [hsplit]
    exact List.mem_append_right _ (List.mem_cons_of_mem _ hv)
  whole := by
    refine h.whole_graft hl hdue (by rw [hlhs]) _ (fun n hnum => ?_)
      (map_fill_shown hε hl hdue hlabels hchildren ahead)
    have hlength := congrArg List.length (Tree.map_label_bodyTrees hlabels)
    rw [List.length_map] at hlength
    exact planFor_dueFrom_of_lt rest ahead c.nextNode p.body _ hnum hlength.symm

/-- The machine expands the root of a tree by the production of the root. -/
theorem exists_step_node (hε : g.isNonTerminal epsilon = false)
    (hclean : (Table.predictive g (compute g)).overwrites = [])
    (hl : Leftmost g tokens consumed c) (h : Ahead g whole c (t :: ahead))
    (hn : g.isNonTerminal t.label = true) :
    (step g (Table.predictive g (compute g)) endMarker c).move.outcome? = none ∧
      ∃ children,
        Ahead g whole (step g (Table.predictive g (compute g)) endMarker c).config
          (children ++ ahead) ∧
        t.moveCount = (children.map Tree.moveCount).sum + 1 := by
  obtain ⟨top, rest, hdue, hlabel, hrest⟩ := h.exists_due
  have hend : top.symbol ≠ endMarker := by
    apply hl.due_ne_endMarker top
    rw [hdue]
    exact List.mem_cons_self
  cases h.isComplete t List.mem_cons_self with
  | leaf id hs => exact absurd rfl (Grammar.ne_of_isNonTerminal hn hs)
  | @node id r hr children hlabels hchildren =>
      obtain ⟨p, hp, rfl⟩ := Grammar.exists_production hr
      rw [Tree.label_node] at hlabel hn
      have hcell := h.get?_of_node hε hclean hp hlabels hchildren
      rw [hlabel] at hn hcell
      rw [step_of_expand hdue hend hn hcell hlabel]
      refine ⟨rfl, Tree.bodyTrees p.toRule children, ?_, ?_⟩
      · exact h.expanded hε hl hp hlabels hchildren hdue hlabel hrest
      · rw [Tree.moveCount_node (Tree.IsDerivation.children_ne_nil hlabels),
          Tree.sum_moveCount_bodyTrees hε hlabels hchildren]

/-! ## Runs -/

/-- The machine works off the trees ahead, with as many steps as they have moves. -/
theorem steps_ahead (hend : g.AvoidsEndMarker) (hε : g.isNonTerminal epsilon = false)
    (hclean : (Table.predictive g (compute g)).overwrites = []) :
    (n : Nat) → (c : Config) → (ahead : List Tree) → (ahead.map Tree.moveCount).sum = n →
      (∃ consumed, Leftmost g tokens consumed c) → Ahead g whole c ahead →
        ∃ c', Machine.Steps (step g (Table.predictive g (compute g)) endMarker) n c c' ∧
          Ahead g whole c' []
  | n, c, [], hcount, _, h => by
      obtain rfl : 0 = n := hcount
      exact ⟨c, .refl c, h⟩
  | n, c, t :: ahead, hcount, ⟨consumed, hl⟩, h => by
      rw [List.map_cons, List.sum_cons] at hcount
      cases hn : g.isNonTerminal t.label with
      | true =>
          obtain ⟨ho, children, h', hmoves⟩ := exists_step_node hε hclean hl h hn
          have hsum : ((children ++ ahead).map Tree.moveCount).sum + 1 = n := by
            rw [List.map_append, List.sum_append]
            omega
          subst hsum
          obtain ⟨final, hsteps, hfinal⟩ :=
            steps_ahead hend hε hclean _ _ (children ++ ahead) rfl (hl.step hend) h'
          exact ⟨final, .head ho hsteps, hfinal⟩
      | false =>
          obtain ⟨ho, h', hmoves⟩ := exists_step_leaf hl h hn
          have hsum : (ahead.map Tree.moveCount).sum + 1 = n := by omega
          subst hsum
          obtain ⟨final, hsteps, hfinal⟩ :=
            steps_ahead hend hε hclean _ _ ahead rfl (hl.step hend) h'
          exact ⟨final, .head ho hsteps, hfinal⟩

end steps

/-- With nothing ahead the machine accepts the tree that it has grown. -/
theorem step_of_ahead_nil {table : Table} {c : Config} {whole : Tree} (h : Ahead g whole c []) :
    step g table endMarker c = ⟨.accept, c⟩ ∧ c.tree.unnumbered = whole.unnumbered := by
  have hdue : c.due = [] := List.map_eq_nil_iff.mp h.labels.symm
  have hwhole := h.whole
  refine ⟨step_of_finished hdue (by rw [h.input]; rfl), ?_⟩
  rw [hdue] at hwhole
  have hfill := Tree.fill_none c.tree
  rwa [show planFor [] [] = fun _ => none from rfl, hfill] at hwhole

/-- A grammar is read from a text, the empty marker is not one of its left-hand sides, and no cell
of its predictive table is overwritten. Then the predictive machine accepts the yield of every
complete derivation tree of the start symbol, in as many steps as the yield has symbols and the
tree has inner nodes, and one more; and it returns that tree with other numbers. -/
theorem predictive_accepts_yield {text : String} (hread : Grammar.read text = .ok g)
    (hε : epsilon ∉ g.nonTerminals) (hclean : (Table.predictive g (compute g)).overwrites = [])
    {T : Tree} (hT : T.IsComplete g) (hroot : T.label = g.startSymbol) {maxSteps : Int}
    (hsteps : (T.yield.length + T.innerCount + 1 : Nat) ≤ maxSteps) :
    let result := parse g (Table.predictive g (compute g)) T.yield ⟨maxSteps, endMarker⟩
    result.outcome = .accepted ∧ result.stepCount = T.yield.length + T.innerCount + 1 ∧
      ∃ tree, result.tree = some tree ∧ tree.unnumbered = T.unnumbered := by
  have hend := Grammar.avoidsEndMarker_of_read hread
  have hε' := Grammar.not_isNonTerminal_epsilon hε
  obtain ⟨c, hrun, hc⟩ := steps_ahead hend hε' hclean T.moveCount _ [T] (by simp)
    ⟨[], Leftmost.initial hend hε' T.yield⟩ (Ahead.initial hT hroot)
  obtain ⟨hstep, htree⟩ := step_of_ahead_nil hc
  have hlimit : T.moveCount + 1 ≤ RunOptions.limit ⟨maxSteps, endMarker⟩ :=
    RunOptions.le_limit hsteps
  obtain ⟨hlength, hlast⟩ := Machine.trace_of_steps hrun hlimit (by rw [hstep]; rfl)
  rw [hstep] at hlast
  have haccepted : (parse g (Table.predictive g (compute g)) T.yield
      ⟨maxSteps, endMarker⟩).outcome = .accepted := Machine.outcome_of_getLast? hlast rfl
  refine ⟨haccepted, ?_, c.tree, tree_parse hlast haccepted, htree⟩
  unfold ParseResult.stepCount
  rw [haccepted, if_neg (by simp)]
  unfold parse
  simp only
  rw [List.length_map, hlength]
  rfl

/-- A pair of brackets is accepted in five steps. -/
theorem predictive_accepts_yield_nested :
    (Table.predictive .nested (compute .nested)).overwrites = [] ∧
    Tree.nested.IsComplete .nested ∧ Tree.nested.yield = ["a", "b"] ∧
    let result := parse .nested (Table.predictive .nested (compute .nested)) Tree.nested.yield
      ⟨5, endMarker⟩
    result.outcome = .accepted ∧ result.stepCount = 5 ∧
      ∃ tree, result.tree = some tree ∧ tree.unnumbered = Tree.nested.unnumbered := by
  have hclean : (Table.predictive .nested (compute .nested)).overwrites = [] := by
    decide +kernel
  refine ⟨hclean, Tree.isComplete_nested, by decide +kernel, ?_⟩
  exact predictive_accepts_yield Grammar.read_nested (by decide +kernel) hclean
    Tree.isComplete_nested rfl (by decide +kernel)

end TableParsing.Predictive
