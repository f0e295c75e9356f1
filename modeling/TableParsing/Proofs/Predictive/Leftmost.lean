import TableParsing.Proofs.Predictive.Step
import TableParsing.Proofs.Table.Predictive

/-!
# The predictive machine makes leftmost derivations

With a predictive table of a grammar, whatever its overwritten cells, a run spells out a leftmost
derivation (`predictive_trace_leftmost`): at every moment the start symbol derives the consumed
tokens followed by the stack, and the tree is a derivation tree with these for its leaves. An
accepted run ends with a complete derivation tree of the tokens.

The invariant is `Leftmost`. A match turns a due symbol without rules into a consumed one, and an
expansion makes one leftmost step; what belongs to the numbers of the nodes is in `Tracks`.
-/

namespace TableParsing.Predictive

/-- A configuration in the middle of a leftmost derivation of the grammar. -/
structure Leftmost (g : Grammar) (tokens consumed : List Symbol) (c : Config) : Prop
    extends Tracks g.startSymbol endMarker tokens consumed c where
  /-- The end marker is not due. -/
  due_ne_endMarker : ∀ d ∈ c.due, d.symbol ≠ endMarker
  /-- The consumed tokens have no rules. -/
  terminals : ∀ s ∈ consumed, g.isNonTerminal s = false
  /-- The tree is a derivation tree. -/
  isPartial : c.tree.IsPartial g
  /-- The consumed tokens and the due symbols are reached by leftmost steps. -/
  derives : g.LeftDerives [g.startSymbol] (consumed ++ c.due.map Due.symbol)

variable {g : Grammar} {tokens consumed : List Symbol} {c : Config} {top : Due} {rest : List Due}

/-- A run begins with the start symbol. -/
theorem Leftmost.initial (hend : g.AvoidsEndMarker) (hε : g.isNonTerminal epsilon = false)
    (tokens : List Symbol) :
    Leftmost g tokens [] (Config.initial g.startSymbol (tokens ++ [endMarker])) where
  toTracks := Tracks.initial (Grammar.startSymbol_ne_epsilon hε) endMarker tokens
  due_ne_endMarker := by
    intro d hd
    rw [Config.initial, List.mem_singleton] at hd
    rw [hd]
    exact Grammar.ne_of_isNonTerminal g.isNonTerminal_startSymbol hend.not_isNonTerminal
  terminals := fun s hs => absurd hs List.not_mem_nil
  isPartial := .leaf 0 trivial
  derives := .refl _

/-- A match moves a symbol from the stack to the consumed tokens. -/
theorem Leftmost.matched (h : Leftmost g tokens consumed c) (hdue : c.due = top :: rest)
    (hterminal : g.isNonTerminal top.symbol = false)
    (hcurrent : c.input.headD endMarker = top.symbol) :
    Leftmost g tokens (consumed ++ [top.symbol])
      { c with due := rest, input := c.input.tail } where
  toTracks := by
    refine h.toTracks.matched hdue (h.due_ne_endMarker top ?_) hcurrent
    rw [hdue]
    exact List.mem_cons_self
  due_ne_endMarker := fun d hd =>
    h.due_ne_endMarker d (by rw [hdue]; exact List.mem_cons_of_mem _ hd)
  terminals := by
    intro s hs
    rcases List.mem_append.mp hs with hs | hs
    · exact h.terminals s hs
    · exact List.mem_singleton.mp hs ▸ hterminal
  isPartial := h.isPartial
  derives := by
    have hderives := h.derives
    rw [hdue, List.map_cons] at hderives
    rwa [List.append_assoc]

/-- An expansion is one leftmost step. -/
theorem Leftmost.expanded (hend : g.AvoidsEndMarker) (h : Leftmost g tokens consumed c)
    (hdue : c.due = top :: rest) {p : Production} (hp : p ∈ g.productions)
    (hlhs : p.lhs = top.symbol) :
    Leftmost g tokens consumed (expand c top.node rest p) where
  toTracks := h.toTracks.expanded hdue p
  due_ne_endMarker := by
    intro d hd
    rcases List.mem_append.mp hd with hd | hd
    · have hs : d.symbol ∈ p.body := by
        rw [← map_symbol_dueFrom c.nextNode p.body]
        exact List.mem_map_of_mem hd
      exact hend.ne_of_mem_body (Grammar.toRule_mem_rules hp) hs
    · exact h.due_ne_endMarker d (by rw [hdue]; exact List.mem_cons_of_mem _ hd)
  terminals := h.terminals
  isPartial := by
    have htop : top ∈ c.due := by
      rw [hdue]
      exact List.mem_cons_self
    refine Tree.IsDerivation.graft (Grammar.toRule_mem_rules hp)
      (Tree.map_label_leavesFrom c.nextNode p.shown) (fun t ht => ?_) h.isPartial
      (hlhs ▸ h.toTracks.eq_of_node_eq htop) (h.toTracks.not_mem_inner htop)
    obtain ⟨n, s, rfl⟩ := Tree.exists_leaf_of_mem_leavesFrom _ _ ht
    exact .leaf n trivial
  derives := by
    have hderives := h.derives
    rw [hdue, List.map_cons, ← hlhs] at hderives
    have hstep := hderives.tail
      (Grammar.LeftStep.rewrite (rest.map Due.symbol) (Grammar.toRule_mem_rules hp) h.terminals)
    show g.LeftDerives _ (consumed ++ (dueFrom c.nextNode p.body ++ rest).map Due.symbol)
    rwa [List.map_append, map_symbol_dueFrom, ← List.append_assoc]

/-- Every step with a predictive table of the grammar keeps the invariant. -/
theorem Leftmost.step (hend : g.AvoidsEndMarker) {sets : FirstFollow}
    (h : Leftmost g tokens consumed c) :
    ∃ consumed', Leftmost g tokens consumed'
      (step g (Table.predictive g sets) endMarker c).config := by
  have heffect := step_effect g (Table.predictive g sets) endMarker c
  revert heffect
  generalize Predictive.step g (Table.predictive g sets) endMarker c = moment
  intro heffect
  cases heffect with
  | matched hdue _ hterminal hcurrent => exact ⟨_, h.matched hdue hterminal hcurrent⟩
  | expanded hdue _ _ hcell hproduction hp =>
      obtain ⟨q, hq, -, -, rfl⟩ := Table.exists_of_get?_predictive hcell
      cases hproduction
      exact ⟨consumed, h.expanded hend hdue hq hp⟩
  | accept | unfinished | mismatch | noEntry | invalidEntry => exact ⟨consumed, h⟩

/-- What is accepted has been consumed, and nothing is due. -/
theorem Leftmost.of_accepting {table : Table} (h : Leftmost g tokens consumed c)
    (ho : (Predictive.step g table endMarker c).move.outcome? = some .accepted) :
    Predictive.step g table endMarker c = ⟨.accept, c⟩ ∧ consumed = tokens ∧ c.due = [] := by
  have heffect := step_effect g table endMarker c
  revert heffect ho
  generalize Predictive.step g table endMarker c = moment
  intro ho heffect
  cases heffect with
  | accept hdue hinput =>
      refine ⟨rfl, h.toTracks.consumed_eq hinput, ?_⟩
      rw [List.eq_nil_iff_forall_not_mem]
      intro d hd
      obtain ⟨top, rest, hcons⟩ := List.exists_cons_of_ne_nil (List.ne_nil_of_mem hd)
      rw [hcons] at hdue
      refine h.due_ne_endMarker top ?_ (hdue top rfl)
      rw [hcons]
      exact List.mem_cons_self
  | unfinished | matched | mismatch | noEntry | invalidEntry | expanded => cases ho

/-- The tree of an accepted run is complete. -/
theorem Leftmost.isComplete (hε : g.isNonTerminal epsilon = false)
    (h : Leftmost g tokens consumed c) (hdue : c.due = []) : c.tree.IsComplete g := by
  apply h.isPartial.of_leaves
  intro s hs
  by_cases hs' : s = epsilon
  · rw [hs', hε]
  · apply h.terminals s
    have hyield := h.toTracks.yield_tree
    rw [hdue, List.map_nil, List.append_nil] at hyield
    rw [← hyield]
    exact List.mem_filter.mpr ⟨hs, by simpa using hs'⟩

/-! ## Runs -/

/-- A grammar is read from a text and the empty marker is not one of its left-hand sides. Then the
predictive machine on its table makes a leftmost derivation of every input, step by step: with the
end marker at the bottom of the stack, the start symbol derives the consumed tokens followed by the
due symbols, which are the leaves of a derivation tree. If the input is accepted, the tree is
complete and derives the tokens. -/
theorem predictive_trace_leftmost {text : String} (hread : Grammar.read text = .ok g)
    (hε : epsilon ∉ g.nonTerminals) (tokens : List Symbol) (maxSteps : Int) :
    let result :=
      parse g (Table.predictive g (FirstFollow.compute g)) tokens ⟨maxSteps, endMarker⟩
    (∀ step ∈ result.trace, ∃ consumed rest due tree,
      tokens = consumed ++ rest ∧ step.input = rest ++ [endMarker] ∧
      step.stack = endMarker :: due.reverse ∧ step.trees = [tree] ∧
      g.LeftDerives [g.startSymbol] (consumed ++ due) ∧
      tree.IsPartial g ∧ tree.label = g.startSymbol ∧ tree.yield = consumed ++ due) ∧
    (result.outcome = .accepted → ∃ tree, result.tree = some tree ∧
      tree.IsComplete g ∧ tree.label = g.startSymbol ∧ tree.yield = tokens) := by
  have hend := Grammar.avoidsEndMarker_of_read hread
  have hε' := Grammar.not_isNonTerminal_epsilon hε
  have hinit : ∃ consumed, Leftmost g tokens consumed
      (Config.initial g.startSymbol (tokens ++ [endMarker])) :=
    ⟨[], Leftmost.initial hend hε' tokens⟩
  have hstep : ∀ c, (∃ consumed, Leftmost g tokens consumed c) →
      ∃ consumed, Leftmost g tokens consumed
        (step g (Table.predictive g (FirstFollow.compute g)) endMarker c).config :=
    fun c ⟨_, h⟩ => h.step hend
  refine ⟨?_, fun haccepted => ?_⟩
  · intro shown hshown
    obtain ⟨moment, hmoment, rfl⟩ := List.mem_map.mp hshown
    obtain ⟨consumed, h⟩ := Machine.forall_mem_trace hstep _ hinit moment hmoment
    obtain ⟨rest, htokens, hinput⟩ := h.input
    exact ⟨consumed, rest, moment.config.due.map Due.symbol, moment.config.tree, htokens, hinput,
      rfl, rfl, h.derives, h.isPartial, h.label, h.toTracks.yield_tree⟩
  · obtain ⟨c, ⟨consumed, h⟩, hlast, ho⟩ := Machine.exists_accepting_step hstep hinit haccepted
    obtain ⟨hmoment, rfl, hdue⟩ := h.of_accepting ho
    rw [hmoment] at hlast
    refine ⟨c.tree, tree_parse hlast haccepted, h.isComplete hε' hdue, h.label, ?_⟩
    have hyield := h.toTracks.yield_tree
    rwa [hdue, List.map_nil, List.append_nil] at hyield

/-- Two nested pairs of brackets are accepted with a complete derivation tree. -/
theorem predictive_trace_leftmost_nested :
    Grammar.read "S -> a S b |" = .ok .nested ∧ epsilon ∉ Grammar.nested.nonTerminals ∧
    ∃ tree,
      (parse .nested (Table.predictive .nested (FirstFollow.compute .nested))
        ["a", "a", "b", "b"] .standard).tree = some tree ∧
      tree.IsComplete .nested ∧ tree.label = "S" ∧ tree.yield = ["a", "a", "b", "b"] := by
  have hε : epsilon ∉ Grammar.nested.nonTerminals := by decide +kernel
  have hruns :=
    predictive_trace_leftmost Grammar.read_nested hε ["a", "a", "b", "b"] 1000
  exact ⟨Grammar.read_nested, hε, hruns.2 (by decide +kernel)⟩

end TableParsing.Predictive
