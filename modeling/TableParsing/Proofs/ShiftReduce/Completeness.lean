import TableParsing.Proofs.Derivation.Tree
import TableParsing.Proofs.FirstFollow.Lookahead
import TableParsing.Proofs.ShiftReduce.Step

/-!
# The shift-reduce machine accepts what is derived

On a table of a collection without conflicts the machine accepts the yield of every complete
derivation tree of the start symbol, in as many steps as the tree has moves and one more, and
returns that tree with other numbers (`shiftReduce_accepts_yield`).

A state is `Ready` for a symbol and what follows it if the symbol leads on, and the items of its
productions are there with lookaheads that allow to reduce before what follows. The machine then
puts a tree of that symbol on the stack (`TreeRuns`), and an item that expects the roots of some
trees advances over them (`forestRuns`). That the state is ready for each of these trees rests on
the lookahead of the trees behind it (`ready_of_holds`).
-/

namespace TableParsing.ShiftReduce

open Collection FirstFollow Table

variable {g : Grammar} {algorithm : Algorithm} {collection : Collection}

/-! ## Being ready for a symbol -/

/-- A state that can read a symbol with something behind it. -/
structure Ready (g : Grammar) (algorithm : Algorithm) (states : List State) (number : Int)
    (symbol following : Symbol) : Prop where
  /-- The symbol leads on. -/
  exists_goes : ∃ next, Goes states number symbol next
  /-- The productions of the symbol can be read and reduced. -/
  exists_holds : ∀ p ∈ g.productions, p.lhs = symbol →
    ∃ lookahead, Holds states number (.dotted p.toRule 0 lookahead) ∧
      MayReduce g algorithm symbol lookahead following

/-- A state is ready for the symbol after a dot if the called items may reduce before what follows
the symbol. -/
theorem ready_of_called (hbuilt : Built g algorithm collection) {number : Int} {caller : Item}
    (hcaller : Holds collection.states number caller) {symbol following : Symbol}
    (hnext : caller.next? = some symbol) {lookahead : Option Symbol}
    (hlookahead :
      lookahead ∈ (ItemSystem.computed g (algorithm = .lr1)).lookaheads caller)
    (hmay : g.isNonTerminal symbol = true → MayReduce g algorithm symbol lookahead following) :
    Ready g algorithm collection.states number symbol following where
  exists_goes := by
    obtain ⟨next, hgoes, -⟩ := hbuilt.linked.exists_goes hcaller hnext
    exact ⟨next, hgoes⟩
  exists_holds := by
    rintro p hp rfl
    exact ⟨lookahead, hbuilt.linked.holds_called hcaller
      (ItemSystem.mem_calledFor.mpr ⟨p, hp, hnext, lookahead, hlookahead, rfl⟩),
      hmay (Grammar.isNonTerminal_lhs (Grammar.toRule_mem_rules hp))⟩

/-- The item of the added start symbol expects the start symbol. -/
theorem next?_augmented (hε : g.isNonTerminal epsilon = false) (lookahead : Option Symbol) :
    (Item.dotted g.augmentedProduction.toRule 0 lookahead).next? = some g.startSymbol :=
  Item.next?_dotted_of_drop (Grammar.body_augmentedProduction hε)

/-- The first state is ready for the start symbol with the end of the input behind it. -/
theorem ready_start (hε : g.isNonTerminal epsilon = false)
    (halgorithm : algorithm ∈ Algorithm.shiftReduce) (hbuilt : Built g algorithm collection) :
    Ready g algorithm collection.states 0 g.startSymbol endMarker := by
  have hstart := hbuilt.linked.holds_start
  have hnext := next?_augmented hε (ItemSystem.computed g (algorithm = .lr1)).startLookahead
  cases algorithm with
  | ll1 => simp [Algorithm.shiftReduce] at halgorithm
  | lr0 =>
      apply ready_of_called hbuilt hstart hnext (List.mem_singleton_self none)
      intro _
      exact List.mem_append_right _ List.mem_cons_self
  | slr1 =>
      apply ready_of_called hbuilt hstart hnext (List.mem_singleton_self none)
      intro _
      exact (followInRange_compute g).start
  | lr1 =>
      refine ready_of_called hbuilt hstart hnext
        ((ItemSystem.mem_lookaheads_dotted rfl).mpr ⟨endMarker, rfl, Or.inr ⟨?_, rfl⟩⟩)
        fun _ => rfl
      show epsilon ∈ firstOfSequence _ (g.augmentedProduction.body.drop 1)
      rw [Grammar.body_augmentedProduction hε]
      exact SymbolSet.mem_singleton.mpr rfl

/-- A state with an item of a production is ready for the symbol after its dot with what the symbols
behind it foretell. -/
theorem ready_of_holds (halgorithm : algorithm ∈ Algorithm.shiftReduce)
    (hbuilt : Built g algorithm collection) {number : Int} {p : Production} (hp : p ∈ g.productions)
    {place : Nat} {lookahead : Option Symbol}
    (hholds : Holds collection.states number (.dotted p.toRule place lookahead))
    {symbol : Symbol} {after : List Symbol} (hsplit : p.body.drop place = symbol :: after)
    {next following : Symbol} (hmay : MayReduce g algorithm p.lhs lookahead following)
    (hforetells : Foretells (compute g).first after next following) :
    Ready g algorithm collection.states number symbol next := by
  have hbody : p.body = p.body.take place ++ symbol :: after := by
    rw [← hsplit, List.take_append_drop]
  have hafter : p.body.drop (place + 1) = after := by
    rw [List.drop_add_one_eq_tail_drop, hsplit, List.tail_cons]
  have hnext : (Item.dotted p.toRule place lookahead).next? = some symbol :=
    Item.next?_dotted_of_drop hsplit
  have hrule := Grammar.toRule_mem_rules hp
  cases algorithm with
  | ll1 => simp [Algorithm.shiftReduce] at halgorithm
  | lr0 =>
      apply ready_of_called hbuilt hholds hnext (List.mem_singleton_self none)
      intro _
      rcases hforetells with ⟨hmem, hne⟩ | ⟨-, rfl⟩
      · apply List.mem_append_left _
        rw [← hafter] at hmem
        exact ItemSystem.mem_terminals_of_mem_trailer (List.mem_cons_of_mem _ hp) hmem hne
      · exact hmay
  | slr1 =>
      apply ready_of_called hbuilt hholds hnext (List.mem_singleton_self none)
      intro hn
      exact mem_follow_of_foretells hrule hbody hn hmay hforetells
  | lr1 =>
      obtain rfl : lookahead = some following := hmay
      refine ready_of_called hbuilt hholds hnext
        ((ItemSystem.mem_lookaheads_dotted rfl).mpr ⟨next, rfl, ?_⟩) fun _ => rfl
      rwa [hafter]

/-! ## Running trees -/

/-- From a state that is ready for it the machine puts a tree on the stack, with as many steps as
the tree has moves. -/
def TreeRuns (g : Grammar) (algorithm : Algorithm) (collection : Collection) (t : Tree) : Prop :=
  ∀ (c : Config) (rest : List Symbol),
    Ready g algorithm collection.states c.state t.label (rest.headD endMarker) →
    c.input = t.yield ++ rest →
    ∃ (c' : Config) (frame : Frame),
      Machine.Steps (step collection.table endMarker) t.moveCount c c' ∧
      c'.input = rest ∧ c'.frames = frame :: c.frames ∧
      Goes collection.states c.state t.label frame.state ∧
      frame.tree.unnumbered = t.unnumbered

/-- A leaf is shifted. -/
theorem treeRuns_leaf (hε : g.isNonTerminal epsilon = false)
    (hbuilt : Built g algorithm collection) (hclean : collection.table.conflicts = []) (id : Nat)
    {s : Symbol} (hs : g.isNonTerminal s = false) :
    TreeRuns g algorithm collection (.leaf id s) := by
  intro c rest hready hinput
  obtain ⟨next, hgoes⟩ := hready.exists_goes
  rw [Tree.label_leaf] at hgoes
  have hne : s ≠ epsilon :=
    Grammar.ne_epsilon_of_isNonTerminal_or_mem_terminals hε
      (hbuilt.linked.symbol_cases_of_goes hgoes)
  rw [Tree.yield_leaf, if_neg hne] at hinput
  have hfound : found collection.table endMarker c = some (.shift next) := by
    rw [found, hinput]
    exact hbuilt.shift_of_goes hclean hs hgoes
  have hcount : (Tree.leaf id s).moveCount = 1 := by
    simp [Tree.moveCount, Tree.innerCount, hne]
  rw [hcount]
  refine ⟨_, _, Machine.Steps.single (step_of_shift hfound) rfl, ?_, rfl, hgoes, ?_⟩
  · show c.input.tail = rest
    rw [hinput]
    rfl
  · show (Tree.leaf c.nextNode (c.input.headD endMarker)).unnumbered = _
    rw [hinput]
    rfl

/-- An item advances over trees whose roots it expects. -/
theorem forestRuns (hε : g.isNonTerminal epsilon = false)
    (halgorithm : algorithm ∈ Algorithm.shiftReduce) (hbuilt : Built g algorithm collection)
    {p : Production} (hp : p ∈ g.productions) {lookahead : Option Symbol} {rest : List Symbol}
    (hmay : MayReduce g algorithm p.lhs lookahead (rest.headD endMarker)) :
    (trees : List Tree) → (place : Nat) → (c : Config) →
      (∀ t ∈ trees, t.IsComplete g ∧ TreeRuns g algorithm collection t) →
      Holds collection.states c.state (.dotted p.toRule place lookahead) →
      p.body.drop place = trees.map Tree.label → c.input = trees.flatMap Tree.yield ++ rest →
        ∃ (c' : Config) (frames : List Frame),
          Machine.Steps (step collection.table endMarker) (trees.map Tree.moveCount).sum c c' ∧
          c'.input = rest ∧ c'.frames = frames ++ c.frames ∧
          (treesOf frames).map Tree.unnumbered = trees.map Tree.unnumbered ∧
          Holds collection.states c'.state (.dotted p.toRule (place + trees.length) lookahead)
  | [], place, c, _, hholds, _, hinput => ⟨c, [], .refl c, hinput, rfl, rfl, hholds⟩
  | t :: trees, place, c, htrees, hholds, hlabels, hinput => by
      obtain ⟨-, hruns⟩ := htrees t List.mem_cons_self
      have hothers : ∀ u ∈ trees, u.IsComplete g ∧ TreeRuns g algorithm collection u := fun u hu =>
        htrees u (List.mem_cons_of_mem _ hu)
      rw [List.map_cons] at hlabels
      have hnext : (Item.dotted p.toRule place lookahead).next? = some t.label :=
        Item.next?_dotted_of_drop hlabels
      have hlabels' : p.body.drop (place + 1) = trees.map Tree.label := by
        rw [List.drop_add_one_eq_tail_drop, hlabels, List.tail_cons]
      have hready : Ready g algorithm collection.states c.state t.label
          ((trees.flatMap Tree.yield ++ rest).headD endMarker) := by
        rw [headD_append]
        exact ready_of_holds halgorithm hbuilt hp hholds hlabels hmay
          (lookahead_of_forest hε (fun u hu => (hothers u hu).1) _)
      rw [List.flatMap_cons, List.append_assoc] at hinput
      obtain ⟨c₁, frame, hsteps, hinput₁, hframes₁, hgoes, htree⟩ := hruns c _ hready hinput
      -- The state after the tree holds the advanced item.
      have hholds₁ : Holds collection.states c₁.state (.dotted p.toRule (place + 1) lookahead) := by
        obtain ⟨next, hgoes', hadvanced⟩ := hbuilt.linked.exists_goes hholds hnext
        rw [Config.state, hframes₁]
        show Holds collection.states frame.state _
        rwa [hbuilt.linked.goes_unique hgoes hgoes']
      obtain ⟨c', frames, hsteps', hinput', hframes', htrees', hholds'⟩ :=
        forestRuns hε halgorithm hbuilt hp hmay trees (place + 1) c₁ hothers hholds₁ hlabels'
          hinput₁
      refine ⟨c', frames ++ [frame], hsteps.trans hsteps', hinput', ?_, ?_, ?_⟩
      · rw [hframes', hframes₁, List.append_assoc]
        rfl
      · rw [List.map_cons, ← htree, ← htrees']
        simp [treesOf]
      · rwa [List.length_cons, Nat.add_comm trees.length, ← Nat.add_assoc]

/-- The children of a reduction are those of a node up to their numbers. -/
theorem map_unnumbered_handle (hε : g.isNonTerminal epsilon = false) {c : Config}
    {p q : Production} (hbody : q.body = p.body) {children : List Tree}
    (hlabels : children.map Tree.label = p.shown) (hchildren : ∀ t ∈ children, t.IsComplete g)
    {frames below : List Frame} (hframes : c.frames = frames ++ below)
    (hlength : frames.length = p.body.length)
    (htrees : (treesOf frames).map Tree.unnumbered =
      (Tree.bodyTrees p.toRule children).map Tree.unnumbered) :
    (handle c q).map Tree.unnumbered = children.map Tree.unnumbered := by
  rw [handle, Rule.isEpsilon, hbody]
  by_cases hnil : p.body = []
  · obtain ⟨id, rfl⟩ := Tree.IsDerivation.eq_marker hε hnil hlabels hchildren
    rw [hnil]
    simp
  · rw [if_neg (by simpa using hnil), hframes, ← hlength, List.take_left, ← treesOf, htrees,
      Tree.bodyTrees, if_neg hnil]

/-- A complete item is reduced, by a production with its rule, if what follows allows it. -/
theorem exists_step_reduce (hend : g.AvoidsEndMarker) (hbuilt : Built g algorithm collection)
    (hclean : collection.table.conflicts = []) {p : Production} (hp : p ∈ g.productions)
    {c : Config} {lookahead : Option Symbol}
    (hholds : Holds collection.states c.state (.dotted p.toRule p.body.length lookahead))
    (hmay : MayReduce g algorithm p.lhs lookahead (c.input.headD endMarker))
    {top below : List Frame} (hframes : c.frames = top ++ below)
    (htop : top.length = p.body.length) {next : Int}
    (hgoes : Goes collection.states (Config.stateAfter below) p.lhs next) :
    ∃ q : Production, q.lhs = p.lhs ∧ q.body = p.body ∧
      step collection.table endMarker c =
        ⟨.reduced q,
          { c with
            frames := ⟨next, q.lhs, .node (nodeNumber c q) q.lhs (handle c q)⟩ :: below
            nextNode := nodeNumber c q + 1 }⟩ := by
  obtain ⟨q, hlhs, hbody, hfound⟩ := hbuilt.exists_reduce_of_holds hclean hp hholds hmay
  have hgoto : gotoFrom collection.table (Config.stateAfter below) q.lhs = some (.goto next) := by
    rw [hlhs]
    exact hbuilt.goto_of_goes hend (Grammar.isNonTerminal_lhs (Grammar.toRule_mem_rules hp)) hgoes
  exact ⟨q, hlhs, hbody, step_of_reduce hfound hframes (hbody ▸ htop) hgoto⟩

/-- The children of a node are put on the stack and reduced. -/
theorem treeRuns_node (hend : g.AvoidsEndMarker) (hε : g.isNonTerminal epsilon = false)
    (halgorithm : algorithm ∈ Algorithm.shiftReduce) (hbuilt : Built g algorithm collection)
    (hclean : collection.table.conflicts = []) (id : Nat) {r : Rule} (hr : r ∈ g.rules)
    {children : List Tree} (hlabels : children.map Tree.label = r.shown)
    (hchildren : ∀ t ∈ children, t.IsComplete g ∧ TreeRuns g algorithm collection t) :
    TreeRuns g algorithm collection (.node id r.lhs children) := by
  intro c rest hready hinput
  obtain ⟨p, hp, rfl⟩ := Grammar.exists_production hr
  have hcomplete : ∀ t ∈ children, t.IsComplete g := fun t ht => (hchildren t ht).1
  have hne := Tree.IsDerivation.children_ne_nil hlabels
  have hroots := Tree.map_label_bodyTrees hlabels
  obtain ⟨next, hgoes⟩ := hready.exists_goes
  obtain ⟨lookahead, hholds, hmay⟩ := hready.exists_holds p hp rfl
  rw [Tree.yield_node hne, ← Tree.flatMap_yield_bodyTrees hε hlabels hcomplete] at hinput
  obtain ⟨c₁, frames, hsteps, hinput₁, hframes, htrees, hholds₁⟩ :=
    forestRuns hε halgorithm hbuilt hp hmay (Tree.bodyTrees p.toRule children) 0 c
      (fun t ht => hchildren t (Tree.mem_of_mem_bodyTrees ht)) hholds
      (by rw [List.drop_zero, hroots]) hinput
  have hcount : (Tree.bodyTrees p.toRule children).length = p.body.length := by
    rw [← hroots, List.length_map]
  have hlength : frames.length = p.body.length := by
    have h := congrArg List.length htrees
    rwa [List.length_map, List.length_map, treesOf, List.length_reverse, List.length_map,
      hcount] at h
  rw [Nat.zero_add, hcount] at hholds₁
  obtain ⟨q, hlhs, hbody, hstep⟩ := exists_step_reduce hend hbuilt hclean hp hholds₁
    (by rwa [hinput₁]) hframes hlength hgoes
  have hmoves : (Tree.node id p.lhs children).moveCount =
      ((Tree.bodyTrees p.toRule children).map Tree.moveCount).sum + 1 := by
    rw [Tree.moveCount_node hne, Tree.sum_moveCount_bodyTrees hε hlabels hcomplete]
  rw [hmoves]
  refine ⟨_, _, hsteps.trans (Machine.Steps.single hstep rfl), hinput₁, rfl, hgoes, ?_⟩
  show (Tree.node _ q.lhs (handle c₁ q)).unnumbered = _
  rw [Tree.unnumbered_node, Tree.unnumbered_node, hlhs,
    map_unnumbered_handle hε hbody hlabels hcomplete hframes hlength htrees]

/-- The machine runs every complete derivation tree. -/
theorem treeRuns (hend : g.AvoidsEndMarker) (hε : g.isNonTerminal epsilon = false)
    (halgorithm : algorithm ∈ Algorithm.shiftReduce) (hbuilt : Built g algorithm collection)
    (hclean : collection.table.conflicts = []) {t : Tree} (ht : t.IsComplete g) :
    TreeRuns g algorithm collection t := by
  induction ht with
  | leaf id hs => exact treeRuns_leaf hε hbuilt hclean id hs
  | node id hr hlabels hchildren ih =>
      exact treeRuns_node hend hε halgorithm hbuilt hclean id hr hlabels fun t ht =>
        ⟨hchildren t ht, ih t ht⟩

/-! ## Acceptance -/

/-- After the start symbol the machine accepts at the end of the input. -/
theorem found_accept (hε : g.isNonTerminal epsilon = false) (hbuilt : Built g algorithm collection)
    (hclean : collection.table.conflicts = []) {c : Config} (hinput : c.input = [endMarker])
    (hgoes : Goes collection.states 0 g.startSymbol c.state) :
    found collection.table endMarker c = some .accept := by
  have hlength : 0 + 1 = g.augmentedProduction.body.length := by
    rw [Grammar.body_augmentedProduction hε]
    rfl
  obtain ⟨next, hgoes', hholds⟩ :=
    hbuilt.linked.exists_goes hbuilt.linked.holds_start (next?_augmented hε _)
  rw [hbuilt.linked.goes_unique hgoes' hgoes, Item.advance_dotted, hlength] at hholds
  rw [found, hinput]
  apply hbuilt.accept_of_holds hclean hholds
  by_cases hlr1 : algorithm = .lr1
  · right
    simp [ItemSystem.startLookahead, hlr1]
  · exact Or.inl hlr1

/-- A grammar is read from a text and the empty marker is not one of its left-hand sides. Then the
collection for any shift-reduce algorithm can be built, and if its table has no conflicts, the
machine on the table accepts the yield of every complete derivation tree of the start symbol: it
makes as many steps as the yield has symbols and the tree has inner nodes, and one more, reads the
whole input, and returns that tree with other numbers. -/
theorem shiftReduce_accepts_yield {text : String} (hread : Grammar.read text = .ok g)
    (hε : epsilon ∉ g.nonTerminals) (halgorithm : algorithm ∈ Algorithm.shiftReduce) :
    ∃ collection, Collection.build g (compute g) algorithm = .ok collection ∧
      (collection.table.conflicts = [] →
        ∀ T : Tree, T.IsComplete g → T.label = g.startSymbol →
        ∀ maxSteps : Int, (T.yield.length + T.innerCount + 1 : Nat) ≤ maxSteps →
          let result := parse collection.table T.yield ⟨maxSteps, endMarker⟩
          result.outcome = .accepted ∧ result.remaining = [endMarker] ∧
          result.trace.length = T.yield.length + T.innerCount + 2 ∧
          ∃ tree, result.tree = some tree ∧ tree.unnumbered = T.unnumbered) := by
  have hend := Grammar.avoidsEndMarker_of_read hread
  have hε' := Grammar.not_isNonTerminal_epsilon hε
  obtain ⟨collection, hbuild, hbuilt⟩ := exists_built g halgorithm
  refine ⟨collection, hbuild, fun hclean T hT hroot maxSteps hsteps => ?_⟩
  have hready : Ready g algorithm collection.states 0 T.label endMarker := by
    rw [hroot]
    exact ready_start hε' halgorithm hbuilt
  obtain ⟨c, frame, hrun, hinput, hframes, hgoes, htree⟩ :=
    treeRuns hend hε' halgorithm hbuilt hclean hT (Config.initial (T.yield ++ [endMarker]))
      [endMarker] hready rfl
  have hstate : c.state = frame.state := by rw [Config.state, hframes]; rfl
  have hfound : found collection.table endMarker c = some .accept := by
    apply found_accept hε' hbuilt hclean hinput
    rw [hstate, ← hroot]
    exact hgoes
  have hstep := step_of_accept hfound (by rw [hinput]; rfl)
  have hlimit : T.moveCount + 1 ≤ RunOptions.limit ⟨maxSteps, endMarker⟩ :=
    RunOptions.le_limit hsteps
  obtain ⟨hlength, hlast⟩ := Machine.trace_of_steps hrun hlimit (by rw [hstep]; rfl)
  rw [hstep] at hlast
  have haccepted : (parse collection.table T.yield ⟨maxSteps, endMarker⟩).outcome = .accepted :=
    Machine.outcome_of_getLast? hlast rfl
  refine ⟨haccepted, ?_, ?_, frame.tree, ?_, htree⟩
  · unfold ParseResult.remaining parse
    simp only
    rw [List.getLast?_map, hlast]
    exact hinput
  · unfold parse
    simp only
    rw [List.length_map, hlength]
    rfl
  · rw [tree_parse hlast haccepted, hframes]
    rfl

/-- A pair of brackets is accepted in five steps. -/
theorem shiftReduce_accepts_yield_nested :
    ∃ collection, Collection.build .nested (compute .nested) .slr1 = .ok collection ∧
      collection.table.conflicts = [] ∧
      let result := parse collection.table Tree.nested.yield ⟨5, endMarker⟩
      result.outcome = .accepted ∧ result.remaining = [endMarker] ∧ result.trace.length = 6 ∧
      ∃ tree, result.tree = some tree ∧ tree.unnumbered = Tree.nested.unnumbered := by
  obtain ⟨collection, hbuild, hruns⟩ := shiftReduce_accepts_yield Grammar.read_nested
    (by decide +kernel) (show Algorithm.slr1 ∈ Algorithm.shiftReduce by decide)
  have hcount : (Collection.build .nested (compute .nested) .slr1).toOption.map (fun c =>
      c.table.conflicts.length) = some 0 := by decide +kernel
  rw [hbuild] at hcount
  have hclean := List.length_eq_zero_iff.mp (Option.some.inj hcount)
  refine ⟨collection, hbuild, hclean, ?_⟩
  exact hruns hclean _ Tree.isComplete_nested rfl 5 (by decide +kernel)

end TableParsing.ShiftReduce
