import TableParsing.Proofs.Derivation.Tree
import TableParsing.Proofs.Machine.Reading
import TableParsing.Proofs.Machine.Records

/-!
# Steps of the predictive machine

`Effect` lists what a step can do, with all that the machine has checked before it does it; every
step is one of these (`step_effect`) and only one (`Effect.step_eq`), whatever the table.

The stack and the tree of the machine are two views of one thing: the leaves of the tree without
the empty markers are the consumed tokens followed by the symbols that are due, number by number
(`Tracks`). This holds on every table, because a symbol is taken off the stack only when it is
matched or when its leaf gets children.
-/

namespace TableParsing.Predictive

/-! ## What a step can do -/

/-- The effects of one step, each with the conditions under which it happens. -/
inductive Effect (g : Grammar) (table : Table) (endSymbol : Symbol) (c : Config) :
    Moment Config → Prop
  | accept (hdue : ∀ top ∈ c.due.head?, top.symbol = endSymbol) (hinput : c.input.length = 1) :
      Effect g table endSymbol c ⟨.accept, c⟩
  | unfinished (hdue : ∀ top ∈ c.due.head?, top.symbol = endSymbol) (hinput : c.input.length ≠ 1) :
      Effect g table endSymbol c ⟨.terminalMismatch, c⟩
  | matched {top : Due} {rest : List Due} (hdue : c.due = top :: rest)
      (hend : top.symbol ≠ endSymbol) (hterminal : g.isNonTerminal top.symbol = false)
      (hcurrent : c.input.headD endSymbol = top.symbol) :
      Effect g table endSymbol c
        ⟨.matched top.symbol, { c with due := rest, input := c.input.tail }⟩
  | mismatch {top : Due} {rest : List Due} (hdue : c.due = top :: rest)
      (hend : top.symbol ≠ endSymbol) (hterminal : g.isNonTerminal top.symbol = false)
      (hcurrent : c.input.headD endSymbol ≠ top.symbol) :
      Effect g table endSymbol c ⟨.terminalMismatch, c⟩
  | noEntry {top : Due} {rest : List Due} (hdue : c.due = top :: rest)
      (hend : top.symbol ≠ endSymbol) (hlhs : g.isNonTerminal top.symbol = true)
      (hcell : table.get? (.nonTerminal top.symbol) (c.input.headD endSymbol) = none) :
      Effect g table endSymbol c ⟨.noEntry, c⟩
  | invalidEntry {top : Due} {rest : List Due} {entry : Action} (hdue : c.due = top :: rest)
      (hend : top.symbol ≠ endSymbol) (hlhs : g.isNonTerminal top.symbol = true)
      (hcell : table.get? (.nonTerminal top.symbol) (c.input.headD endSymbol) = some entry)
      (hinvalid : ∀ p, entry.primary.production? = some p → p.lhs ≠ top.symbol) :
      Effect g table endSymbol c ⟨.invalidEntry entry, c⟩
  | expanded {top : Due} {rest : List Due} {entry : Action} {p : Production}
      (hdue : c.due = top :: rest) (hend : top.symbol ≠ endSymbol)
      (hlhs : g.isNonTerminal top.symbol = true)
      (hcell : table.get? (.nonTerminal top.symbol) (c.input.headD endSymbol) = some entry)
      (hproduction : entry.primary.production? = some p) (hp : p.lhs = top.symbol) :
      Effect g table endSymbol c ⟨.expanded p, expand c top.node rest p⟩

/-- With the end marker on top the machine accepts iff only the end marker is left. -/
theorem finish_effect {g : Grammar} {table : Table} {endSymbol : Symbol} {c : Config}
    (hdue : ∀ top ∈ c.due.head?, top.symbol = endSymbol) :
    Effect g table endSymbol c (finish c) := by
  unfold finish
  split
  · next hinput => exact .accept hdue hinput
  · next hinput => exact .unfinished hdue hinput

/-- Every step has one of the effects. -/
theorem step_effect (g : Grammar) (table : Table) (endSymbol : Symbol) (c : Config) :
    Effect g table endSymbol c (step g table endSymbol c) := by
  unfold step
  split
  · next hdue =>
      apply finish_effect
      rw [hdue]
      intro top htop
      cases htop
  · next top rest hdue =>
      simp only
      split
      · next hend =>
          apply finish_effect
          rw [hdue]
          rintro _ ⟨⟩
          exact hend
      · next hend =>
          split
          · next hterminal =>
              have hterminal : g.isNonTerminal top.symbol = false := by simpa using hterminal
              split
              · next hcurrent => exact .matched hdue hend hterminal hcurrent.symm
              · next hcurrent => exact .mismatch hdue hend hterminal (Ne.symm hcurrent)
          · next hlhs =>
              have hlhs : g.isNonTerminal top.symbol = true := by simpa using hlhs
              split
              · next hcell => exact .noEntry hdue hend hlhs hcell
              · next entry hcell =>
                  split
                  · next hnone =>
                      refine .invalidEntry hdue hend hlhs hcell fun p hp => ?_
                      rw [hnone] at hp
                      cases hp
                  · next p hproduction =>
                      split
                      · next hp => exact .expanded hdue hend hlhs hcell hproduction hp
                      · next hp =>
                          refine .invalidEntry hdue hend hlhs hcell fun q hq => ?_
                          rw [hproduction] at hq
                          cases hq
                          exact hp

section steps

variable {g : Grammar} {table : Table} {endSymbol : Symbol} {c : Config} {top : Due}
  {rest : List Due}

/-- With the end marker on top, or nothing, the machine looks whether the input is at its end. -/
theorem step_eq_finish (hdue : ∀ top ∈ c.due.head?, top.symbol = endSymbol) :
    step g table endSymbol c = finish c := by
  unfold step
  cases hc : c.due with
  | nil => rfl
  | cons top rest =>
      rw [hc] at hdue
      exact if_pos (hdue top rfl)

/-- The effects exclude one another: what the conditions of one of them say, the step does. -/
theorem Effect.step_eq {moment : Moment Config} (h : Effect g table endSymbol c moment) :
    step g table endSymbol c = moment := by
  cases h with
  | accept hdue hinput => rw [step_eq_finish hdue, finish, if_pos hinput]
  | unfinished hdue hinput => rw [step_eq_finish hdue, finish, if_neg hinput]
  | matched hdue hend hterminal hcurrent =>
      unfold step
      rw [hdue]
      simp only
      rw [if_neg hend, hterminal, Bool.not_false, if_pos rfl, if_pos hcurrent.symm]
  | mismatch hdue hend hterminal hcurrent =>
      unfold step
      rw [hdue]
      simp only
      rw [if_neg hend, hterminal, Bool.not_false, if_pos rfl, if_neg (Ne.symm hcurrent)]
  | noEntry hdue hend hlhs hcell =>
      unfold step
      rw [hdue]
      simp only
      rw [if_neg hend, hlhs, Bool.not_true, if_neg Bool.false_ne_true, hcell]
  | invalidEntry hdue hend hlhs hcell hinvalid =>
      unfold step
      rw [hdue]
      simp only
      rw [if_neg hend, hlhs, Bool.not_true, if_neg Bool.false_ne_true, hcell]
      simp only
      split
      · rfl
      · next p hproduction => exact if_neg (hinvalid p hproduction)
  | expanded hdue hend hlhs hcell hproduction hp =>
      unfold step
      rw [hdue]
      simp only
      rw [if_neg hend, hlhs, Bool.not_true, if_neg Bool.false_ne_true, hcell]
      simp only
      rw [hproduction]
      exact if_pos hp

/-- The move of a step is that of its effect. -/
theorem Effect.move_eq {move : Move} {config : Config}
    (h : Effect g table endSymbol c ⟨move, config⟩) : (step g table endSymbol c).move = move := by
  rw [h.step_eq]

/-- With nothing due the machine accepts at the end of the input. -/
theorem step_of_finished (hdue : c.due = []) (hinput : c.input.length = 1) :
    step g table endSymbol c = ⟨.accept, c⟩ := by
  refine Effect.step_eq (.accept ?_ hinput)
  rw [hdue]
  intro top htop
  cases htop

/-- The machine matches a symbol without rules with the next symbol of the input. -/
theorem step_of_match (hdue : c.due = top :: rest) (hend : top.symbol ≠ endSymbol)
    (hterminal : g.isNonTerminal top.symbol = false)
    (hcurrent : c.input.headD endSymbol = top.symbol) :
    step g table endSymbol c =
      ⟨.matched top.symbol, { c with due := rest, input := c.input.tail }⟩ :=
  Effect.step_eq (.matched hdue hend hterminal hcurrent)

/-- The machine expands a non-terminal by the production that it finds. -/
theorem step_of_expand (hdue : c.due = top :: rest) (hend : top.symbol ≠ endSymbol)
    (hn : g.isNonTerminal top.symbol = true) {p : Production}
    (hcell : table.get? (.nonTerminal top.symbol) (c.input.headD endSymbol) = some (.predict p))
    (hlhs : p.lhs = top.symbol) :
    step g table endSymbol c = ⟨.expanded p, expand c top.node rest p⟩ :=
  Effect.step_eq (.expanded hdue hend hn hcell rfl hlhs)

/-- No step has the outcome of the limit. -/
theorem outcome_ne_stepLimit {o : Outcome}
    (ho : (step g table endSymbol c).move.outcome? = some o) : o ≠ .stepLimit := by
  have heffect := step_effect g table endSymbol c
  revert ho heffect
  generalize step g table endSymbol c = moment
  intro ho heffect
  cases heffect with
  | matched | expanded => cases ho
  | accept | unfinished | mismatch | noEntry | invalidEntry =>
      cases ho
      decide

/-- The tree of an accepted run is the one that has grown by its end. -/
theorem tree_parse {tokens : List Symbol} {options : RunOptions} {moment : Moment Config}
    (hlast : (Machine.trace (step g table options.endSymbol) options.limit
      (Config.initial g.startSymbol (tokens ++ [options.endSymbol]))).getLast? = some moment)
    (haccepted : (parse g table tokens options).outcome = .accepted) :
    (parse g table tokens options).tree = some moment.config.tree := by
  unfold parse at haccepted ⊢
  simp only at haccepted ⊢
  rw [if_pos haccepted, lastMoment, hlast, Option.getD_some]

/-- The rest of the input is that of the last configuration. -/
theorem remaining_parse {tokens : List Symbol} {options : RunOptions} {moment : Moment Config}
    (hlast : (Machine.trace (step g table options.endSymbol) options.limit
      (Config.initial g.startSymbol (tokens ++ [options.endSymbol]))).getLast? = some moment) :
    (parse g table tokens options).remaining = moment.config.input := by
  unfold ParseResult.remaining parse
  simp only
  rw [List.getLast?_map, hlast]
  rfl

end steps

/-! ## What a step reads -/

section reading

variable {g : Grammar} {table : Table} {endSymbol : Symbol} {c : Config}

/-- A configuration with another rest of the input. -/
def Config.withInput (c : Config) (input : List Symbol) : Config := { c with input := input }

/-- The machine sees the first symbol of its input, and whether more come behind it. -/
theorem readsOne_step (g : Grammar) (table : Table) (endSymbol : Symbol) :
    Machine.ReadsOne (step g table endSymbol) Config.input Config.withInput where
  length_le := by
    intro c
    have heffect := step_effect g table endSymbol c
    revert heffect
    generalize step g table endSymbol c = moment
    intro heffect
    cases heffect with
    | matched => simp
    | accept | unfinished | mismatch | noEntry | invalidEntry | expanded => exact Nat.le_refl _
  step_withInput := by
    intro c s xs ys hinput hnone
    have hcurrent : c.input.headD endSymbol = s := by rw [hinput, List.headD_cons]
    have heffect := step_effect g table endSymbol c
    revert hnone heffect
    generalize step g table endSymbol c = moment
    intro hnone heffect
    cases heffect with
    | matched hdue hend hterminal hmatch =>
        refine ⟨1, Nat.le_refl _, by rw [hinput]; rfl, ?_⟩
        exact Effect.step_eq (.matched hdue hend hterminal (hcurrent.symm.trans hmatch))
    | expanded hdue hend hlhs hcell hproduction hp =>
        rw [hcurrent] at hcell
        refine ⟨0, Nat.zero_le _, hinput, ?_⟩
        exact Effect.step_eq (.expanded hdue hend hlhs hcell hproduction hp)
    | accept | unfinished | mismatch | noEntry | invalidEntry => cases hnone
  move_withInput := by
    intro c s xs ys hinput hxs hys
    have hcurrent : c.input.headD endSymbol = s := by rw [hinput, List.headD_cons]
    have hlength : (c.withInput (s :: ys)).input.length ≠ 1 := by simpa [Config.withInput] using hys
    have heffect := step_effect g table endSymbol c
    revert heffect
    generalize step g table endSymbol c = moment
    intro heffect
    cases heffect with
    | accept _ hlength' =>
        rw [hinput] at hlength'
        exact absurd hlength' (by simpa using hxs)
    | unfinished hdue => exact Effect.move_eq (.unfinished hdue hlength)
    | matched hdue hend hterminal hmatch =>
        exact Effect.move_eq (.matched hdue hend hterminal (hcurrent.symm.trans hmatch))
    | mismatch hdue hend hterminal hmatch =>
        rw [hcurrent] at hmatch
        exact Effect.move_eq (.mismatch hdue hend hterminal hmatch)
    | noEntry hdue hend hlhs hcell =>
        rw [hcurrent] at hcell
        exact Effect.move_eq (.noEntry hdue hend hlhs hcell)
    | invalidEntry hdue hend hlhs hcell hinvalid =>
        rw [hcurrent] at hcell
        exact Effect.move_eq (.invalidEntry hdue hend hlhs hcell hinvalid)
    | expanded hdue hend hlhs hcell hproduction hp =>
        rw [hcurrent] at hcell
        exact Effect.move_eq (.expanded hdue hend hlhs hcell hproduction hp)
  input_of_outcome := by
    intro c o ho
    have heffect := step_effect g table endSymbol c
    revert heffect ho
    generalize step g table endSymbol c = moment
    intro ho heffect
    cases heffect with
    | matched | expanded => cases ho
    | accept | unfinished | mismatch | noEntry | invalidEntry => rfl

end reading

/-! ## Stack and tree -/

/-- The due symbols with the numbers of their leaves. -/
def dueLeaves (due : List Due) : List (Nat × Symbol) := due.map fun d => (d.node, d.symbol)

/-- The tree of a configuration belongs to its stack: the leaves that are no empty markers are the
consumed tokens and then the due symbols. -/
structure Tracks (start endSymbol : Symbol) (tokens consumed : List Symbol) (c : Config) :
    Prop where
  /-- The tokens are the consumed ones and the rest of the input. -/
  input : ∃ rest, tokens = consumed ++ rest ∧ c.input = rest ++ [endSymbol]
  /-- No empty marker is due. -/
  due_ne : ∀ d ∈ c.due, d.symbol ≠ epsilon
  /-- The tree has grown from the start symbol. -/
  label : c.tree.label = start
  /-- The next number is new. -/
  lt_nextNode : ∀ n ∈ c.tree.numbers, n < c.nextNode
  /-- No number occurs twice. -/
  nodup : c.tree.numbers.Nodup
  /-- The leaves are the consumed tokens and the due symbols. -/
  frontier : ∃ done : List (Nat × Symbol), done.map Prod.snd = consumed ∧
    c.tree.frontier.filter (·.2 ≠ epsilon) = done ++ dueLeaves c.due

/-- New due symbols have the leaves of the new children, as far as these are no empty markers. -/
theorem filter_frontier_leavesFrom (id : Nat) :
    (body : List Symbol) → (∀ s ∈ body, s ≠ epsilon) →
      ((Tree.leavesFrom id body).flatMap Tree.frontier).filter (·.2 ≠ epsilon) =
        dueLeaves (dueFrom id body)
  | [], _ => rfl
  | s :: rest, h => by
      have ih := filter_frontier_leavesFrom (id + 1) rest fun x hx =>
        h x (List.mem_cons_of_mem _ hx)
      have hs : s ≠ epsilon := h s List.mem_cons_self
      rw [Tree.leavesFrom, List.flatMap_cons, Tree.frontier_leaf, List.singleton_append,
        List.filter_cons_of_pos (by simpa using hs), ih]
      rfl

/-- The same for all that a rule shows. -/
theorem filter_frontier_shown (id : Nat) (r : Rule) :
    ((Tree.leavesFrom id r.shown).flatMap Tree.frontier).filter (·.2 ≠ epsilon) =
      dueLeaves (dueFrom id r.body) := by
  by_cases hbody : r.body = []
  · rw [Rule.shown_of_body_nil hbody, hbody]
    rfl
  · rw [Rule.shown_of_body_ne_nil hbody]
    exact filter_frontier_leavesFrom id r.body fun s hs => Rule.ne_epsilon_of_mem_body hs

/-- The symbols of a body are due in their order. -/
@[simp] theorem map_symbol_dueFrom (id : Nat) :
    (body : List Symbol) → (dueFrom id body).map Due.symbol = body
  | [] => rfl
  | s :: rest => by rw [dueFrom, List.map_cons, map_symbol_dueFrom (id + 1) rest]

/-- Taking the start symbol for the root, nothing is consumed and the start symbol is due. -/
theorem Tracks.initial {start : Symbol} (hstart : start ≠ epsilon) (endSymbol : Symbol)
    (tokens : List Symbol) :
    Tracks start endSymbol tokens [] (Config.initial start (tokens ++ [endSymbol])) where
  input := ⟨tokens, rfl, rfl⟩
  due_ne := by
    intro d hd
    rw [Config.initial, List.mem_singleton] at hd
    exact hd ▸ hstart
  label := rfl
  lt_nextNode := by
    intro n hn
    rw [Config.initial, Tree.numbers_leaf, List.mem_singleton] at hn
    exact hn ▸ Nat.zero_lt_one
  nodup := by
    rw [Config.initial, Tree.numbers_leaf]
    exact List.nodup_singleton _
  frontier := ⟨[], rfl, by simp [Config.initial, dueLeaves, hstart]⟩

namespace Tracks

variable {start endSymbol : Symbol} {tokens consumed : List Symbol} {c : Config} {top : Due}
  {rest : List Due}

/-- A matched symbol is the next token, not the end marker behind the tokens. -/
theorem matched (h : Tracks start endSymbol tokens consumed c) (hdue : c.due = top :: rest)
    (hend : top.symbol ≠ endSymbol) (hcurrent : c.input.headD endSymbol = top.symbol) :
    Tracks start endSymbol tokens (consumed ++ [top.symbol])
      { c with due := rest, input := c.input.tail } where
  input := by
    obtain ⟨left, htokens, hinput⟩ := h.input
    rw [hinput] at hcurrent
    cases left with
    | nil => exact absurd hcurrent.symm hend
    | cons t left =>
        have ht : t = top.symbol := hcurrent
        refine ⟨left, ?_, ?_⟩
        · rw [htokens, ht, List.append_assoc, List.singleton_append]
        · rw [hinput]
          rfl
  due_ne := fun d hd => h.due_ne d (by rw [hdue]; exact List.mem_cons_of_mem _ hd)
  label := h.label
  lt_nextNode := h.lt_nextNode
  nodup := h.nodup
  frontier := by
    obtain ⟨done, hdone, hfrontier⟩ := h.frontier
    refine ⟨done ++ [(top.node, top.symbol)], ?_, ?_⟩
    · rw [List.map_append, hdone]
      rfl
    · rw [hfrontier, hdue, List.append_assoc]
      rfl

/-- The symbol on top is at one place of the frontier, and the leaves after it that are no empty
markers are those of the other due symbols. -/
theorem exists_frontier_split (h : Tracks start endSymbol tokens consumed c)
    (hdue : c.due = top :: rest) :
    ∃ before after, c.tree.frontier = before ++ (top.node, top.symbol) :: after ∧
      (before.filter (·.2 ≠ epsilon)).map Prod.snd = consumed ∧
      after.filter (·.2 ≠ epsilon) = dueLeaves rest := by
  obtain ⟨done, hdone, hfrontier⟩ := h.frontier
  rw [hdue, dueLeaves, List.map_cons, List.filter_eq_append_iff] at hfrontier
  obtain ⟨left, right, hsplit, hleft, hright⟩ := hfrontier
  rw [List.filter_eq_cons_iff] at hright
  obtain ⟨markers, after, hright, hmarkers, -, hafter⟩ := hright
  refine ⟨left ++ markers, after, ?_, ?_, hafter⟩
  · rw [hsplit, hright, List.append_assoc]
  · rw [List.filter_append, hleft, List.filter_eq_nil_iff.mpr hmarkers, List.append_nil, hdone]

/-- A due symbol has its leaf in the tree. -/
theorem mem_frontier (h : Tracks start endSymbol tokens consumed c) {d : Due} (hd : d ∈ c.due) :
    (d.node, d.symbol) ∈ c.tree.frontier := by
  obtain ⟨done, -, hfrontier⟩ := h.frontier
  have hmem : (d.node, d.symbol) ∈ c.tree.frontier.filter (·.2 ≠ epsilon) := by
    rw [hfrontier]
    exact List.mem_append_right _ (List.mem_map.mpr ⟨d, hd, rfl⟩)
  exact (List.mem_filter.mp hmem).1

/-- The leaf of a due symbol is not an inner node. -/
theorem not_mem_inner (h : Tracks start endSymbol tokens consumed c) {d : Due} (hd : d ∈ c.due) :
    d.node ∉ c.tree.inner :=
  Tree.not_mem_inner_of_mem_frontier h.nodup (h.mem_frontier hd)

/-- The leaf of a due symbol has an old number. -/
theorem node_mem_numbers (h : Tracks start endSymbol tokens consumed c) {d : Due}
    (hd : d ∈ c.due) : d.node ∈ c.tree.numbers :=
  (Tree.numbers_perm c.tree).mem_iff.mpr
    (List.mem_append_left _ (List.mem_map.mpr ⟨_, h.mem_frontier hd, rfl⟩))

/-- The leaf of the symbol on top has no other symbol. -/
theorem eq_of_node_eq (h : Tracks start endSymbol tokens consumed c) {d : Due} (hd : d ∈ c.due) :
    ∀ leaf ∈ c.tree.frontier, leaf.1 = d.node → leaf.2 = d.symbol := by
  intro leaf hleaf hnode
  have heq := List.inj_on_of_nodup_map (Tree.nodup_frontier h.nodup) hleaf (h.mem_frontier hd) hnode
  rw [heq]

/-- The other due symbols have leaves of their own. -/
theorem node_ne_top (h : Tracks start endSymbol tokens consumed c) (hdue : c.due = top :: rest)
    {d : Due} (hd : d ∈ rest) : d.node ≠ top.node := by
  obtain ⟨before, after, hsplit, -, hafter⟩ := h.exists_frontier_split hdue
  refine Tree.ne_of_frontier_split h.nodup hsplit (d.node, d.symbol) (List.mem_append_right _ ?_)
  have hmem : (d.node, d.symbol) ∈ after.filter (·.2 ≠ epsilon) := by
    rw [hafter]
    exact List.mem_map.mpr ⟨d, hd, rfl⟩
  exact (List.mem_filter.mp hmem).1

/-- Expanding the leaf of the symbol on top adds the next numbers. -/
theorem numbers_expand (h : Tracks start endSymbol tokens consumed c) (hdue : c.due = top :: rest)
    (p : Production) :
    (expand c top.node rest p).tree.numbers.Perm
      (c.tree.numbers ++ List.range' c.nextNode p.shown.length) := by
  obtain ⟨before, after, hsplit, -, -⟩ := h.exists_frontier_split hdue
  rw [← Tree.flatMap_numbers_leavesFrom]
  exact Tree.numbers_graft_split h.nodup hsplit

/-- Expanding the leaf of the symbol on top puts the body there. -/
theorem expanded (h : Tracks start endSymbol tokens consumed c) (hdue : c.due = top :: rest)
    (p : Production) : Tracks start endSymbol tokens consumed (expand c top.node rest p) where
  input := h.input
  due_ne := by
    intro d hd
    rcases List.mem_append.mp hd with hd | hd
    · have hs : d.symbol ∈ p.body := by
        rw [← map_symbol_dueFrom c.nextNode p.body]
        exact List.mem_map_of_mem hd
      exact Rule.ne_epsilon_of_mem_body hs
    · exact h.due_ne d (by rw [hdue]; exact List.mem_cons_of_mem _ hd)
  label := (Tree.label_graft _ _ _).trans h.label
  lt_nextNode := by
    intro n hn
    show n < c.nextNode + p.shown.length
    rcases List.mem_append.mp ((h.numbers_expand hdue p).mem_iff.mp hn) with hold | hnew
    · exact Nat.lt_add_right _ (h.lt_nextNode n hold)
    · exact (List.mem_range'_1.mp hnew).2
  nodup := by
    apply (h.numbers_expand hdue p).nodup_iff.mpr
    refine List.nodup_append.mpr ⟨h.nodup, List.nodup_range', ?_⟩
    rintro n hold _ hnew rfl
    have hlt := h.lt_nextNode n hold
    have hge := (List.mem_range'_1.mp hnew).1
    omega
  frontier := by
    obtain ⟨before, after, hsplit, hbefore, hafter⟩ := h.exists_frontier_split hdue
    have hgrown : Tree.leavesFrom c.nextNode p.shown ≠ [] := by
      intro hnil
      have hlabels := Tree.map_label_leavesFrom c.nextNode p.shown
      rw [hnil] at hlabels
      exact p.shown_ne_nil hlabels.symm
    refine ⟨before.filter (·.2 ≠ epsilon), hbefore, ?_⟩
    show ((c.tree.graft top.node (Tree.leavesFrom c.nextNode p.shown)).frontier).filter _ = _
    rw [Tree.frontier_graft_split h.nodup hgrown hsplit, List.filter_append, List.filter_append,
      filter_frontier_shown, hafter, List.append_assoc, dueLeaves, dueLeaves, ← List.map_append]
    rfl

/-- The yield of the tree is the consumed tokens followed by the due symbols. -/
theorem yield_tree (h : Tracks start endSymbol tokens consumed c) :
    c.tree.yield = consumed ++ c.due.map Due.symbol := by
  obtain ⟨done, hdone, hfrontier⟩ := h.frontier
  rw [Tree.yield, ← Tree.map_snd_frontier, List.filter_map]
  show (c.tree.frontier.filter (·.2 ≠ epsilon)).map Prod.snd = _
  rw [hfrontier, List.map_append, hdone, dueLeaves, List.map_map]
  rfl

/-- With only the end marker left, all tokens are consumed. -/
theorem consumed_eq (h : Tracks start endSymbol tokens consumed c) (hinput : c.input.length = 1) :
    consumed = tokens := by
  obtain ⟨rest, htokens, hrest⟩ := h.input
  obtain rfl : rest = [] := by simpa [hrest] using hinput
  rw [htokens, List.append_nil]

/-- **Tracking a step**: every step keeps the tree with the stack and with what has been read, on any
table. -/
theorem step (g : Grammar) (table : Table) (h : Tracks start endSymbol tokens consumed c) :
    Tracks start endSymbol tokens
      (consumed ++ readBy [(step g table endSymbol c).move]) (step g table endSymbol c).config := by
  have heffect := step_effect g table endSymbol c
  revert heffect
  generalize Predictive.step g table endSymbol c = moment
  intro heffect
  cases heffect with
  | matched hdue hend _ hcurrent => exact h.matched hdue hend hcurrent
  | expanded hdue =>
      rw [show readBy [Move.expanded _] = [] from rfl, List.append_nil]
      exact h.expanded hdue _
  | accept | unfinished | mismatch | noEntry | invalidEntry =>
      exact (List.append_nil consumed).symm ▸ h

end Tracks

end TableParsing.Predictive
