import TableParsing.Proofs.Derivation.Tree
import TableParsing.Proofs.ShiftReduce.Stacks

/-!
# The shift-reduce machine recognises what it derives

On the table of a collection, whatever its conflicts, each symbol on the stack derives the tokens
that it has been recognised from, and these are the consumed tokens from left to right. An accepted
run ends with a complete derivation tree of the tokens (`shiftReduce_trace_derives`).

The invariant is `Recognised`. A shift puts a terminal on the stack. A reduction is asked for by a
complete item, so what it takes off the stack is the body of its production, and the goto of the
uncovered state is there (`IsPath.of_holds_complete`, `IsPath.exists_goto`). At an acceptance
the start symbol is alone on the stack, because only the first state holds the item of the added
start symbol.
-/

namespace TableParsing.ShiftReduce

open Collection

/-! ## Frames and trees -/

/-- A frame stands for what its tree derives. -/
structure Frame.Stands (g : Grammar) (frame : Frame) : Prop where
  /-- The root of the tree is the symbol. -/
  label : frame.tree.label = frame.symbol
  /-- The tree is finished. -/
  isComplete : frame.tree.IsComplete g

variable {g : Grammar} {c : Config} {p : Production}

/-- The roots of the trees are the symbols. -/
theorem map_label_treesOf {frames : List Frame} (h : ∀ frame ∈ frames, frame.Stands g) :
    (treesOf frames).map Tree.label = symbolsOf frames :=
  map_label_treesOf_of_label fun frame hf => (h frame hf).label

/-- The children of a reduction are what the production shows. -/
theorem map_label_handle (h : ∀ frame ∈ c.frames, frame.Stands g)
    (hsymbols : symbolsOf (c.frames.take p.body.length) = p.body) :
    (handle c p).map Tree.label = p.shown := by
  rw [handle, Rule.shown]
  split
  · rfl
  · rw [← treesOf, map_label_treesOf fun frame hf => h frame (List.mem_of_mem_take hf), hsymbols]

/-- The children of a reduction are finished trees. -/
theorem isComplete_of_mem_handle (hε : g.isNonTerminal epsilon = false)
    (h : ∀ frame ∈ c.frames, frame.Stands g) {t : Tree} (ht : t ∈ handle c p) :
    t.IsComplete g := by
  unfold handle at ht
  split at ht
  · rw [List.mem_singleton.mp ht]
    exact .leaf c.nextNode hε
  · obtain ⟨frame, hf, rfl⟩ := List.mem_map.mp (List.mem_reverse.mp ht)
    exact (h frame (List.mem_of_mem_take hf)).isComplete

/-! ## The invariant -/

/-- A configuration in the middle of a recognition. -/
structure Recognised (g : Grammar) (states : List State) (tokens consumed : List Symbol)
    (c : Config) : Prop where
  /-- The tokens are the consumed ones and the rest of the input. -/
  input : ∃ rest, tokens = consumed ++ rest ∧ c.input = rest ++ [endMarker]
  /-- The states on the stack follow the symbols. -/
  isPath : IsPath states c.frames
  /-- Each symbol stands for a tree. -/
  stands : ∀ frame ∈ c.frames, frame.Stands g
  /-- The trees yield the consumed tokens. -/
  yield : (treesOf c.frames).flatMap Tree.yield = consumed

variable {states : List State} {tokens consumed : List Symbol} {hasLookahead : Bool}

/-- At the beginning nothing has been recognised. -/
theorem Recognised.initial (g : Grammar) (states : List State) (tokens : List Symbol) :
    Recognised g states tokens [] (Config.initial (tokens ++ [endMarker])) where
  input := ⟨tokens, rfl, rfl⟩
  isPath := trivial
  stands := fun _ hf => absurd hf List.not_mem_nil
  yield := rfl

/-- A shift recognises a terminal. -/
theorem Recognised.shifted (hend : g.AvoidsEndMarker)
    (hlinked : Linked (ItemSystem.computed g hasLookahead) states.length [] states)
    (h : Recognised g states tokens consumed c) {next : Int}
    (hgoes : Goes states c.state (c.input.headD endMarker) next)
    (hterminal : g.isNonTerminal (c.input.headD endMarker) = false) :
    Recognised g states tokens (consumed ++ [c.input.headD endMarker])
      { frames := ⟨next, c.input.headD endMarker,
          .leaf c.nextNode (c.input.headD endMarker)⟩ :: c.frames
        input := c.input.tail
        nextNode := c.nextNode + 1 } := by
  have hmem : c.input.headD endMarker ∈ g.terminals :=
    (hlinked.symbol_cases_of_goes hgoes).resolve_left fun hn =>
      Grammar.ne_of_isNonTerminal hn hterminal rfl
  have hne := (Grammar.mem_terminals.mp hmem).2.1
  obtain ⟨rest, htokens, hinput⟩ := h.input
  cases rest with
  | nil =>
      -- The end marker is no terminal.
      rw [hinput] at hmem
      exact absurd hmem hend.not_mem_terminals
  | cons s rest =>
      rw [hinput] at hgoes hterminal hne ⊢
      refine ⟨⟨rest, by rw [htokens, List.append_cons]; rfl, rfl⟩, ⟨hgoes, h.isPath⟩, ?_, ?_⟩
      · intro frame hf
        rcases List.mem_cons.mp hf with rfl | hf
        · exact ⟨rfl, .leaf c.nextNode hterminal⟩
        · exact h.stands frame hf
      · rw [← h.yield, treesOf, List.map_cons, List.reverse_cons, List.flatMap_append,
          List.flatMap_singleton, Tree.yield_leaf, if_neg hne, treesOf]

/-- A reduction puts the body on top of the stack together. -/
theorem Recognised.reduced (hε : g.isNonTerminal epsilon = false)
    (h : Recognised g states tokens consumed c) (hp : p ∈ g.productions)
    (hsymbols : symbolsOf (c.frames.take p.body.length) = p.body) {next : Int}
    (hgoes : Goes states (Config.stateAfter (c.frames.drop p.body.length)) p.lhs next)
    (node nextNode : Nat) :
    Recognised g states tokens consumed
      { c with
        frames := ⟨next, p.lhs, .node node p.lhs (handle c p)⟩ :: c.frames.drop p.body.length
        nextNode := nextNode } where
  input := h.input
  isPath := ⟨hgoes, h.isPath.drop p.body.length⟩
  stands := by
    intro frame hf
    rcases List.mem_cons.mp hf with rfl | hf
    · refine ⟨rfl, .node node (Grammar.toRule_mem_rules hp) (map_label_handle h.stands hsymbols) ?_⟩
      exact fun t ht => isComplete_of_mem_handle hε h.stands ht
    · exact h.stands frame (List.mem_of_mem_drop hf)
  yield := by
    have hne := Tree.IsDerivation.children_ne_nil (map_label_handle h.stands hsymbols)
    rw [treesOf, List.map_cons, List.reverse_cons, ← treesOf, List.flatMap_append,
      List.flatMap_singleton, Tree.yield_node hne, flatMap_yield_handle, ← List.flatMap_append,
      treesOf_drop_append_take, h.yield]

variable {algorithm : Algorithm} {collection : Collection}

/-- Every step with the table of a collection keeps the invariant. -/
theorem Recognised.step (hbuilt : Built g algorithm collection) (hend : g.AvoidsEndMarker)
    (hε : g.isNonTerminal epsilon = false)
    (h : Recognised g collection.states tokens consumed c) :
    ∃ consumed', Recognised g collection.states tokens consumed'
      (step collection.table endMarker c).config := by
  have heffect := step_effect collection.table endMarker c
  revert heffect
  generalize ShiftReduce.step collection.table endMarker c = moment
  intro heffect
  cases heffect with
  | shifted hfound =>
      obtain ⟨hgoes, hterminal⟩ := hbuilt.of_shift hfound
      exact ⟨_, h.shifted hend hbuilt.linked hgoes hterminal⟩
  | reduced hfound _ hgoto =>
      obtain ⟨hp, -, hsymbols, -⟩ := h.isPath.exists_goto hbuilt hend hfound
      exact ⟨consumed, h.reduced hε hp hsymbols (hbuilt.of_goto hgoto).1 _ _⟩
  | gotoError hfound _ hgoto =>
      obtain ⟨-, -, -, next, hnext⟩ := h.isPath.exists_goto hbuilt hend hfound
      exact absurd hnext (hgoto next)
  | underflow | accept | unfinished | noTransition | invalidAction => exact ⟨consumed, h⟩

/-- At an acceptance the start symbol is alone on the stack and stands for all tokens. -/
theorem Recognised.of_accepting (hbuilt : Built g algorithm collection)
    (hε : g.isNonTerminal epsilon = false)
    (h : Recognised g collection.states tokens consumed c)
    (ho : (ShiftReduce.step collection.table endMarker c).move.outcome? = some .accepted) :
    ShiftReduce.step collection.table endMarker c = ⟨.accept, c⟩ ∧
      ∃ frame, c.frames = [frame] ∧ frame.symbol = g.startSymbol ∧ frame.tree.yield = tokens := by
  have heffect := step_effect collection.table endMarker c
  revert heffect ho
  generalize ShiftReduce.step collection.table endMarker c = moment
  intro ho heffect
  cases heffect with
  | accept hfound hinput =>
      refine ⟨rfl, ?_⟩
      obtain ⟨lookahead, hholds⟩ := hbuilt.of_accept hfound
      obtain ⟨hdepth, hsymbols, hstart⟩ := h.isPath.of_holds_complete hbuilt.linked hholds
      have hbody : g.augmentedProduction.toRule.body = [g.startSymbol] :=
        Grammar.body_augmentedProduction hε
      rw [hbody] at hdepth hsymbols hstart
      -- Below the start symbol lies the first state, and so nothing else.
      have hzero := hbuilt.linked.eq_zero_of_holds hstart rfl
      have hnil := IsPath.eq_nil hbuilt.linked (h.isPath.drop 1) hzero
      obtain ⟨frame, below, hframes⟩ := List.exists_cons_of_length_pos hdepth
      rw [hframes] at hnil hsymbols
      obtain rfl : below = [] := hnil
      refine ⟨frame, hframes, List.head_eq_of_cons_eq hsymbols, ?_⟩
      obtain ⟨rest, htokens, hrest⟩ := h.input
      obtain rfl : rest = [] := by simpa [hrest] using hinput
      have hyield := h.yield
      rw [hframes] at hyield
      rw [htokens, List.append_nil, ← hyield]
      exact (List.flatMap_singleton _ _).symm
  | shifted | reduced | underflow | gotoError | unfinished | noTransition | invalidAction =>
      cases ho

/-- Each symbol on the stack derives the yield of its tree. -/
theorem Recognised.derives
    (hlinked : Linked (ItemSystem.computed g hasLookahead) states.length [] states)
    (hε : g.isNonTerminal epsilon = false) (h : Recognised g states tokens consumed c) :
    List.Forall₂ (fun s block => g.Derives [s] block) (symbolsOf c.frames)
      ((treesOf c.frames).map Tree.yield) := by
  rw [← map_label_treesOf h.stands, List.forall₂_map_left_iff, List.forall₂_map_right_iff,
    List.forall₂_same]
  intro t ht
  obtain ⟨frame, hf, rfl⟩ := List.mem_map.mp (List.mem_reverse.mp ht)
  have hstands := h.stands frame hf
  apply hstands.isComplete.derives hε
  rw [hstands.label]
  exact Grammar.ne_epsilon_of_isNonTerminal_or_mem_terminals hε
    (h.isPath.symbol_cases hlinked frame hf)

/-- The symbols on the stack derive the consumed tokens. -/
theorem Recognised.derives_consumed
    (hlinked : Linked (ItemSystem.computed g hasLookahead) states.length [] states)
    (hε : g.isNonTerminal epsilon = false) (h : Recognised g states tokens consumed c) :
    g.Derives (symbolsOf c.frames) consumed := by
  have hblocks := Grammar.derives_flatten (h.derives hlinked hε)
  rwa [← List.flatMap_def, h.yield] at hblocks

/-- The consumed tokens have no rules. -/
theorem Recognised.not_isNonTerminal (h : Recognised g states tokens consumed c) :
    ∀ s ∈ consumed, g.isNonTerminal s = false := by
  intro s hs
  rw [← h.yield] at hs
  obtain ⟨t, ht, hmem⟩ := List.mem_flatMap.mp hs
  obtain ⟨frame, hf, rfl⟩ := List.mem_map.mp (List.mem_reverse.mp ht)
  exact (h.stands frame hf).isComplete.not_isNonTerminal_of_mem_yield hmem

/-! ## Runs -/

/-- A grammar is read from a text and the empty marker is not one of its left-hand sides. Then the
collection for any shift-reduce algorithm can be built, and the machine on its table recognises
every input step by step: each symbol above the end marker derives a block of tokens, the yield of
its tree, and the blocks in a row are the consumed tokens. If the input is accepted, there is a
complete derivation tree of the start symbol that yields the tokens. -/
theorem shiftReduce_trace_derives {text : String} (hread : Grammar.read text = .ok g)
    (hε : epsilon ∉ g.nonTerminals) (halgorithm : algorithm ∈ Algorithm.shiftReduce) :
    ∃ collection, Collection.build g (FirstFollow.compute g) algorithm = .ok collection ∧
      ∀ (tokens : List Symbol) (maxSteps : Int),
        let result := parse collection.table tokens ⟨maxSteps, endMarker⟩
        (∀ step ∈ result.trace, ∃ consumed rest symbols blocks,
          tokens = consumed ++ rest ∧ step.input = rest ++ [endMarker] ∧
          step.symbols = endMarker :: symbols ∧ blocks.flatten = consumed ∧
          List.Forall₂ (fun s block => g.Derives [s] block) symbols blocks ∧
          step.trees.map Tree.label = symbols ∧ step.trees.map Tree.yield = blocks) ∧
        (result.outcome = .accepted → ∃ tree, result.tree = some tree ∧
          tree.IsComplete g ∧ tree.label = g.startSymbol ∧ tree.yield = tokens ∧
          g.Derives [g.startSymbol] tokens) := by
  have hend := Grammar.avoidsEndMarker_of_read hread
  have hε' := Grammar.not_isNonTerminal_epsilon hε
  obtain ⟨collection, hbuild, hbuilt⟩ := exists_built g halgorithm
  refine ⟨collection, hbuild, fun tokens maxSteps => ?_⟩
  have hinit : ∃ consumed, Recognised g collection.states tokens consumed
      (Config.initial (tokens ++ [endMarker])) := ⟨[], Recognised.initial g _ tokens⟩
  have hstep : ∀ c, (∃ consumed, Recognised g collection.states tokens consumed c) →
      ∃ consumed, Recognised g collection.states tokens consumed
        (step collection.table endMarker c).config :=
    fun c ⟨_, h⟩ => h.step hbuilt hend hε'
  refine ⟨?_, fun haccepted => ?_⟩
  · intro shown hshown
    obtain ⟨moment, hmoment, rfl⟩ := List.mem_map.mp hshown
    obtain ⟨consumed, h⟩ := Machine.forall_mem_trace hstep _ hinit moment hmoment
    obtain ⟨rest, htokens, hinput⟩ := h.input
    refine ⟨consumed, rest, symbolsOf moment.config.frames,
      (treesOf moment.config.frames).map Tree.yield, htokens, hinput, rfl, ?_,
      h.derives hbuilt.linked hε', map_label_treesOf h.stands, rfl⟩
    rw [← List.flatMap_def, h.yield]
  · obtain ⟨c, ⟨consumed, h⟩, hlast, ho⟩ := Machine.exists_accepting_step hstep hinit haccepted
    obtain ⟨hmoment, frame, hframes, hsymbol, hyield⟩ := h.of_accepting hbuilt hε' ho
    rw [hmoment] at hlast
    have hstands := h.stands frame (by rw [hframes]; exact List.mem_cons_self)
    have hlabel := hstands.label.trans hsymbol
    refine ⟨frame.tree, ?_, hstands.isComplete, hlabel, hyield, ?_⟩
    · rw [tree_parse hlast haccepted, hframes]
      rfl
    · rw [← hlabel, ← hyield]
      apply hstands.isComplete.derives hε'
      rw [hlabel]
      exact Grammar.startSymbol_ne_epsilon hε'

/-- A sum of three is accepted on a table with conflicts. -/
theorem shiftReduce_trace_derives_sums :
    ∃ collection, Collection.build .sums (FirstFollow.compute .sums) .slr1 = .ok collection ∧
      collection.table.conflicts ≠ [] ∧
      ∃ tree,
        (parse collection.table ["id", "+", "id", "+", "id"] .standard).tree = some tree ∧
        tree.IsComplete .sums ∧ tree.label = "E" ∧ tree.yield = ["id", "+", "id", "+", "id"] ∧
        Grammar.sums.Derives ["E"] ["id", "+", "id", "+", "id"] := by
  obtain ⟨collection, hbuild, hruns⟩ := shiftReduce_trace_derives Grammar.read_sums
    (by decide +kernel) (show Algorithm.slr1 ∈ Algorithm.shiftReduce by decide)
  have hrun : (Collection.build .sums (FirstFollow.compute .sums) .slr1).toOption.map (fun c =>
      (c.table.conflicts.isEmpty,
        (parse c.table ["id", "+", "id", "+", "id"] .standard).outcome)) =
      some (false, .accepted) := by decide +kernel
  rw [hbuild] at hrun
  obtain ⟨hconflicts, haccepted⟩ := Prod.mk.inj (Option.some.inj hrun)
  refine ⟨collection, hbuild, ?_, (hruns _ _).2 haccepted⟩
  exact fun hnil => Bool.false_ne_true (hconflicts.symm.trans (List.isEmpty_iff.mpr hnil))

end TableParsing.ShiftReduce
