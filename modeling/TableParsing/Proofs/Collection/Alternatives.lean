import TableParsing.Proofs.Collection.Conflicts
import TableParsing.Proofs.Table.Priority

/-!
# What the cells of a collection hold

The alternatives of a cell are given by its state and its symbol (`FollowsStates`): the shift or goto
of the transition on the symbol, then the acceptance, then the reductions in the order of their
productions. Of several productions with one left-hand side and one body the first stands for all.

The alternatives are what the state asks for, none of them is repeated, and they are in the order of
their ranks. There is one list like this, since a state asks for no two actions of the same rank
(`eq_of_rank_eq`), and the three parts make up such a list, too.
-/

namespace TableParsing

open ItemSystem NumberedItem Table

variable {g : Grammar} {algorithm : Algorithm} {s : State} {symbol : Symbol}

namespace Collection

/-! ## The parts of a cell -/

/-- The shift or goto of the transition of a state on a symbol. -/
def moves (g : Grammar) (s : State) (symbol : Symbol) : List Action :=
  match s.transitions.get? symbol with
  | none => []
  | some next =>
    if symbol ∈ g.nonTerminals then [.goto next]
    else if symbol ∈ g.terminals then [.shift next]
    else []

/-- The state holds the complete item of a rule, for LR(1) the one with the given lookahead. -/
def Completes (algorithm : Algorithm) (s : State) (r : Rule) (lookahead : Symbol) : Prop :=
  Item.dotted r r.body.length (if algorithm = .lr1 then some lookahead else none) ∈
    s.items.map toItem

instance (algorithm : Algorithm) (s : State) (r : Rule) (lookahead : Symbol) :
    Decidable (Completes algorithm s r lookahead) :=
  inferInstanceAs (Decidable (_ ∈ _))

/-- The acceptance at the end of the input. -/
def acceptances (g : Grammar) (algorithm : Algorithm) (s : State) (symbol : Symbol) :
    List Action :=
  if symbol = endMarker ∧ Completes algorithm s g.augmentedProduction.toRule endMarker then
    [.accept]
  else []

/-- The symbols under which an algorithm reduces to a non-terminal, the lookahead apart: LR(0) under
the terminals and the end marker, SLR(1) under what may follow the non-terminal, and LR(1) under
all. -/
def Allows (g : Grammar) (lhs symbol : Symbol) : Algorithm → Prop
  | .lr0 => symbol ∈ g.terminals ∨ symbol = endMarker
  | .slr1 => symbol ∈ FirstFollow.setOf (FirstFollow.compute g).follow lhs
  | .lr1 => True
  | .ll1 => False

/-- The state asks for a reduction by the production under a symbol. -/
structure Reduces (g : Grammar) (algorithm : Algorithm) (s : State) (symbol : Symbol)
    (p : Production) : Prop where
  /-- It is a production of the grammar. -/
  mem : p ∈ g.productions
  /-- It is the first with its left-hand side and its body. -/
  least : ∀ q ∈ g.productions, q.lhs = p.lhs → q.body = p.body → p.index ≤ q.index
  /-- Its complete item is in the state. -/
  completes : Completes algorithm s p.toRule symbol
  /-- The algorithm reduces under the symbol. -/
  allows : Allows g p.lhs symbol algorithm

/-- With the symbol for its lookahead, an item reduces where its algorithm allows it. -/
theorem mayReduce_iff_allows {lhs : Symbol} :
    MayReduce g algorithm lhs (if algorithm = .lr1 then some symbol else none) symbol ↔
      Allows g lhs symbol algorithm := by
  cases algorithm <;> simp [MayReduce, Allows]

/-! ## What a state asks for -/

/-- A move is the action of a transition. -/
theorem mem_moves_iff {a : Action} :
    a ∈ moves g s symbol ↔
      ∃ next, s.transitions.get? symbol = some next ∧
        ((symbol ∈ g.nonTerminals ∧ a = .goto next) ∨
          (symbol ∉ g.nonTerminals ∧ symbol ∈ g.terminals ∧ a = .shift next)) := by
  unfold moves
  cases s.transitions.get? symbol with
  | none => simp
  | some next =>
      simp only [Option.some.injEq, exists_eq_left']
      split
      · next hn => simp [hn]
      · next hn => split <;> simp [*]

section states

variable {states : List State}
  (h : Linked (computed g (algorithm = .lr1)) states.length [] states) (hs : s ∈ states)
include h hs

/-- The moves of a state are the shifts and gotos that it asks for. -/
theorem Linked.mem_moves_iff_rowEntry {a : Action} :
    a ∈ moves g s symbol ↔
      ∃ next, s.transitions.get? symbol = some next ∧
        a = if g.isNonTerminal symbol then .goto next else .shift next := by
  rw [mem_moves_iff]
  refine exists_congr fun next => and_congr_right fun hget => ?_
  have hcases := h.symbol_cases_of_goes ⟨s, hs, rfl, hget⟩
  rw [← Grammar.isNonTerminal_iff]
  cases hn : g.isNonTerminal symbol with
  | true => simp
  | false =>
      rw [hn] at hcases
      simp [hcases.resolve_left Bool.false_ne_true]

/-- A state asks for an acceptance at the end of the input if it holds the complete item of the added
start symbol. -/
theorem Linked.rowEntry_accept_iff :
    RowEntry g algorithm s symbol .accept ↔
      symbol = endMarker ∧ Completes algorithm s g.augmentedProduction.toRule endMarker := by
  constructor
  · intro hentry
    cases hentry with
    | item hx hentry =>
        have hlookahead := hentry.lookahead_eq (h.isItem hs _ hx)
        cases hentry with
        | accept hx' hsymbol _ =>
            subst hx' hsymbol
            refine ⟨rfl, List.mem_map.mpr ⟨_, hx, ?_⟩⟩
            exact congrArg (Item.dotted _ _) hlookahead
  · rintro ⟨rfl, hcompletes⟩
    obtain ⟨t, ht, hid, q, hq, hlhs, -, hx⟩ := h.exists_mem_items_of_holds ⟨s, hs, rfl, hcompletes⟩
    obtain rfl := h.eq_of_id_eq ht hs hid
    obtain rfl := Grammar.eq_augmentedProduction hq hlhs
    refine .item hx (itemEntry_augmented_iff.mpr ⟨rfl, rfl, ?_⟩)
    by_cases hlr1 : algorithm = .lr1
    · exact Or.inr (if_pos hlr1)
    · exact Or.inl hlr1

/-- A state asks for a reduction by the first production of a complete item. -/
theorem Linked.rowEntry_reduce_iff {p : Production} :
    RowEntry g algorithm s symbol (.reduce p) ↔ Reduces g algorithm s symbol p := by
  constructor
  · intro hentry
    cases hentry with
    | item hx hentry =>
        have hlookahead := hentry.lookahead_eq (h.isItem hs _ hx)
        cases hentry with
        | reduce hp hx' hmay =>
            subst hx'
            obtain rfl := hlookahead
            exact ⟨hp, fun q hq => h.isLeading hs _ hx q (List.mem_cons_of_mem _ hq),
              List.mem_map_of_mem hx, mayReduce_iff_allows.mp hmay⟩
  · rintro ⟨hp, hleast, hcompletes, hallows⟩
    have hleading : (NumberedItem.dotted p p.body.length none).IsLeading g := by
      intro q hq hlhs hbody
      refine hleast q (Grammar.mem_productions_of_lhs_ne hq ?_) hlhs hbody
      rw [hlhs]
      exact Grammar.lhs_ne_augmentedStart hp
    have hx := h.mem_items_of_holds hs (List.mem_cons_of_mem _ hp) hleading
      ⟨s, hs, rfl, hcompletes⟩
    exact .item hx (.reduce hp rfl (mayReduce_iff_allows.mpr hallows))

/-- A state asks for its moves, the acceptance and the reductions. -/
theorem Linked.rowEntry_iff {a : Action} :
    RowEntry g algorithm s symbol a ↔
      a ∈ moves g s symbol ∨ a ∈ acceptances g algorithm s symbol ∨
        ∃ p, Reduces g algorithm s symbol p ∧ a = .reduce p := by
  have haccept : a ∈ acceptances g algorithm s symbol ↔
      a = .accept ∧ RowEntry g algorithm s symbol .accept := by
    rw [h.rowEntry_accept_iff hs, acceptances]
    split
    · next hend => simp [hend]
    · next hend => simp [hend]
  rw [h.mem_moves_iff_rowEntry hs, haccept]
  simp only [← h.rowEntry_reduce_iff hs]
  constructor
  · intro hentry
    rcases hentry.reason with hmove | ⟨x, hx, hitem⟩
    · exact Or.inl hmove
    · cases hitem with
      | accept => exact Or.inr (Or.inl ⟨rfl, hentry⟩)
      | reduce => exact Or.inr (Or.inr ⟨_, hentry, rfl⟩)
  · rintro (⟨next, hget, rfl⟩ | ⟨rfl, hentry⟩ | ⟨p, hentry, rfl⟩)
    · cases hn : g.isNonTerminal symbol with
      | true => exact .goto hget hn
      | false => exact .shift hget hn
    · exact hentry
    · exact hentry

end states

/-- An acceptance has another rank than a reduction. -/
theorem rank_accept_ne {p : Production} (hp : p ∈ g.productions) :
    Action.accept.rank ≠ (Action.reduce p).rank := by
  intro hrank
  have hindex : -1 = p.index := WithBot.coe_inj.mp hrank
  have hnonneg := Grammar.index_nonneg hp
  omega

/-- A state asks for no two actions of the same rank. -/
theorem eq_of_rank_eq {a b : Action} (ha : RowEntry g algorithm s symbol a)
    (hb : RowEntry g algorithm s symbol b) (hrank : a.rank = b.rank) : a = b := by
  have hmove : ∀ {next : Int} {c : Action},
      c = (if g.isNonTerminal symbol then .goto next else .shift next) → c.rank = ⊥ := by
    rintro next c rfl
    split <;> rfl
  -- Each of the two is for a transition or for an item.
  rcases ha.reason with ⟨next, hget, ha'⟩ | ⟨x, -, hx⟩ <;>
    rcases hb.reason with ⟨next', hget', hb'⟩ | ⟨y, -, hy⟩
  · -- There is one transition on the symbol.
    rw [hget] at hget'
    rw [ha', hb', Option.some.inj hget']
  · rw [hmove ha', hy.rank_eq] at hrank
    exact absurd hrank.symm WithBot.coe_ne_bot
  · rw [hmove hb', hx.rank_eq] at hrank
    exact absurd hrank WithBot.coe_ne_bot
  · -- Items ask for one acceptance, and for reductions by productions with different numbers.
    cases hx with
    | accept =>
        cases hy with
        | accept => rfl
        | reduce hq => exact absurd hrank (rank_accept_ne hq)
    | reduce hp =>
        cases hy with
        | accept => exact absurd hrank.symm (rank_accept_ne hp)
        | reduce hq => rw [Grammar.eq_of_index_eq hp hq (WithBot.coe_inj.mp hrank)]

/-! ## One list of each kind -/

/-- Actions in the strict order of their ranks are given by which they are. -/
theorem eq_of_pairwise_rank_lt {actions others : List Action}
    (h : actions.Pairwise fun a b => a.rank < b.rank)
    (h' : others.Pairwise fun a b => a.rank < b.rank) (hmem : ∀ a, a ∈ actions ↔ a ∈ others) :
    actions = others := by
  have hirrefl : Std.Irrefl fun a b : Action => a.rank < b.rank := ⟨fun a => lt_irrefl a.rank⟩
  have hantisymm : Std.Antisymm fun a b : Action => a.rank < b.rank :=
    ⟨fun _ _ hlt hgt => absurd hgt hlt.asymm⟩
  exact h.eq_of_mem_iff h' hmem

/-- The moves, the acceptance and the reductions are in the strict order of their ranks. -/
theorem pairwise_rank_parts {reductions : List Production}
    (horder : reductions.Pairwise fun p q => p.index < q.index)
    (hproductions : ∀ p ∈ reductions, p ∈ g.productions) :
    (moves g s symbol ++ acceptances g algorithm s symbol ++
      reductions.map Action.reduce).Pairwise fun a b => a.rank < b.rank := by
  have hmove : ∀ a ∈ moves g s symbol, a.rank = ⊥ := by
    intro a ha
    obtain ⟨next, -, ⟨-, rfl⟩ | ⟨-, -, rfl⟩⟩ := mem_moves_iff.mp ha <;> rfl
  have haccept : ∀ a ∈ acceptances g algorithm s symbol, a.rank = (-1 : Int) := by
    intro a ha
    unfold acceptances at ha
    split at ha
    · rw [List.mem_singleton.mp ha]
      rfl
    · cases ha
  have hreduce : ∀ a ∈ reductions.map Action.reduce, (-1 : Int) < a.rank := by
    intro a ha
    obtain ⟨p, hp, rfl⟩ := List.mem_map.mp ha
    have hindex := Grammar.index_nonneg (hproductions p hp)
    exact WithBot.coe_lt_coe.mpr (by omega)
  refine List.pairwise_append.mpr ⟨List.pairwise_append.mpr ⟨?_, ?_, ?_⟩, ?_, ?_⟩
  · unfold moves
    split
    · exact List.Pairwise.nil
    · split
      · exact List.pairwise_singleton _ _
      · split
        · exact List.pairwise_singleton _ _
        · exact List.Pairwise.nil
  · unfold acceptances
    split
    · exact List.pairwise_singleton _ _
    · exact List.Pairwise.nil
  · intro a ha b hb
    rw [hmove a ha, haccept b hb]
    exact WithBot.bot_lt_coe _
  · exact List.pairwise_map.mpr (horder.imp fun hlt => WithBot.coe_lt_coe.mpr hlt)
  · intro a ha b hb
    rcases List.mem_append.mp ha with ha | ha
    · rw [hmove a ha]
      exact lt_of_le_of_lt bot_le (hreduce b hb)
    · rw [haccept a ha]
      exact hreduce b hb

/-! ## The cells of a collection -/

section built

variable (halgorithm : algorithm ∈ Algorithm.shiftReduce) {collection : Collection}
  (hbuild : build g (FirstFollow.compute g) algorithm = .ok collection)
include halgorithm hbuild

/-- The alternatives of the cells of a collection are in the strict order of their ranks. -/
theorem pairwise_rank_alternatives (hs : s ∈ collection.states) :
    (collection.table.alternatives (.state s.id) symbol).Pairwise fun a b => a.rank < b.rank := by
  obtain ⟨collection', entries, hbuild', hlinked, hentries, htable, hplain, -⟩ :=
    exists_entries g halgorithm
  obtain rfl : collection' = collection := Except.ok.inj (hbuild'.symm.trans hbuild)
  have hle : (collection'.table.alternatives (.state s.id) symbol).Pairwise
      fun a b => a.rank ≤ b.rank := by
    rw [htable]
    exact pairwise_alternatives_addAll (get?_withRows _ _ _ _ _ _) hplain
      (pairwise_allEntries _ (fun t ht => hlinked.isItem ht)
        (fun t ht => (hlinked.inOrder_items ht).pairwise_index) hlinked.pairwise_id_ne hentries)
  refine (hle.and (nodup_alternatives halgorithm hbuild _ _)).imp_of_mem ?_
  rintro a b ha hb ⟨hab, hne⟩
  rw [mem_alternatives_state_iff halgorithm hbuild hs] at ha hb
  exact lt_of_le_of_ne hab fun hrank => hne (eq_of_rank_eq ha hb hrank)

/-- A cell holds the shift or goto, the acceptance, and the reductions by their numbers. -/
theorem exists_alternatives_eq (hs : s ∈ collection.states) (symbol : Symbol) :
    ∃ reductions : List Production, reductions.Pairwise (fun p q => p.index < q.index) ∧
      (∀ p, p ∈ reductions ↔ Reduces g algorithm s symbol p) ∧
      collection.table.alternatives (.state s.id) symbol =
        moves g s symbol ++ acceptances g algorithm s symbol ++ reductions.map .reduce := by
  classical
  obtain ⟨collection', hbuild', hbuilt⟩ := exists_built g halgorithm
  obtain rfl : collection' = collection := Except.ok.inj (hbuild'.symm.trans hbuild)
  let reductions := g.productions.filter fun p => Reduces g algorithm s symbol p
  have hmem : ∀ p, p ∈ reductions ↔ Reduces g algorithm s symbol p := by
    intro p
    rw [List.mem_filter, decide_eq_true_iff, and_iff_right_of_imp Reduces.mem]
  have horder : reductions.Pairwise fun p q => p.index < q.index :=
    g.pairwise_index_productions.filter _
  refine ⟨reductions, horder, hmem, eq_of_pairwise_rank_lt
    (pairwise_rank_alternatives halgorithm hbuild hs)
    (pairwise_rank_parts horder fun p hp => ((hmem p).mp hp).mem) fun a => ?_⟩
  rw [mem_alternatives_state_iff halgorithm hbuild hs, hbuilt.linked.rowEntry_iff hs,
    List.mem_append, List.mem_append, List.mem_map, or_assoc]
  simp only [hmem, eq_comm]

/-- The columns of a collection. -/
theorem headers_eq :
    collection.table.actionHeaders = g.terminals ++ [endMarker] ∧
      collection.table.gotoHeaders = g.nonTerminals := by
  obtain ⟨collection', entries, hbuild', -, -, htable, -, -⟩ := exists_entries g halgorithm
  obtain rfl : collection' = collection := Except.ok.inj (hbuild'.symm.trans hbuild)
  rw [htable]
  exact headers_addAll entries _

/-- A cell is in the row of a state and under one of the columns. -/
theorem exists_state_of_get? {row : Row} {cell : Action}
    (hcell : collection.table.get? row symbol = some cell) :
    (∃ s ∈ collection.states, row = .state s.id) ∧ symbol ∈ collection.table.headers := by
  obtain ⟨collection', hbuild', hbuilt⟩ := exists_built g halgorithm
  obtain rfl : collection' = collection := Except.ok.inj (hbuild'.symm.trans hbuild)
  have hprimary : cell.primary ∈ collection'.table.alternatives row symbol :=
    mem_alternatives_iff.mpr ⟨cell, hcell, cell.primary_mem_choices⟩
  obtain ⟨s, hs, hrow, hentry⟩ := (mem_alternatives_iff_rowEntry halgorithm hbuild).mp hprimary
  obtain ⟨haction, hgoto⟩ := headers_eq halgorithm hbuild
  refine ⟨⟨s, hs, hrow⟩, ?_⟩
  rw [headers, haction, hgoto, List.mem_append, List.mem_append, List.mem_singleton,
    ← Grammar.isNonTerminal_iff]
  rcases hbuilt.symbol_cases_of_rowEntry hs hentry with (hn | hterminal) | hmarker
  · exact Or.inr hn
  · exact Or.inl (Or.inl hterminal)
  · exact Or.inl (Or.inr hmarker)

/-- If no rule uses the end marker, no cell under a non-terminal is a conflict. -/
theorem not_isConflict_of_goto (hend : g.AvoidsEndMarker)
    (hn : symbol ∈ collection.table.gotoHeaders) {row : Row} {cell : Action}
    (hcell : collection.table.get? row symbol = some cell) : cell.isConflict = false := by
  obtain ⟨collection', hbuild', hbuilt⟩ := exists_built g halgorithm
  obtain rfl : collection' = collection := Except.ok.inj (hbuild'.symm.trans hbuild)
  rw [(headers_eq halgorithm hbuild).2, ← Grammar.isNonTerminal_iff] at hn
  rw [← Bool.not_eq_true]
  intro hconflict
  obtain ⟨s, hs, -, a, b, hne, ha, hb⟩ :=
    (conflictAt_iff halgorithm hbuild).mp ⟨cell, hcell, hconflict⟩
  exact hne (hbuilt.eq_of_rowEntry_nonTerminal hend hs hn ha hb)

end built

/-- The table of a collection holds what the states of the automaton ask for, by priority. -/
structure FollowsStates (g : Grammar) (algorithm : Algorithm) (collection : Collection) : Prop where
  /-- The columns are those of the terminals and the end marker, and of the non-terminals. -/
  headers_eq : collection.table.actionHeaders = g.terminals ++ [endMarker] ∧
    collection.table.gotoHeaders = g.nonTerminals
  /-- A cell holds the shift or goto, the acceptance, and the reductions by their numbers. -/
  alternatives_eq : ∀ s ∈ collection.states, ∀ symbol, ∃ reductions : List Production,
    reductions.Pairwise (fun p q => p.index < q.index) ∧
    (∀ p, p ∈ reductions ↔ Reduces g algorithm s symbol p) ∧
    collection.table.alternatives (.state s.id) symbol =
      moves g s symbol ++ acceptances g algorithm s symbol ++ reductions.map .reduce
  /-- A cell is in the row of a state and under one of the columns. -/
  mem_headers : ∀ row symbol cell, collection.table.get? row symbol = some cell →
    (∃ s ∈ collection.states, row = .state s.id) ∧ symbol ∈ collection.table.headers
  /-- No cell under a non-terminal is a conflict. -/
  not_isConflict_goto : ∀ row, ∀ symbol ∈ collection.table.gotoHeaders, ∀ cell,
    collection.table.get? row symbol = some cell → cell.isConflict = false
  /-- The conflicts are the cells with two alternatives or more. -/
  mem_conflicts_iff : ∀ c, c ∈ collection.table.conflicts ↔
    2 ≤ c.actions.length ∧ c.actions = collection.table.alternatives c.row c.symbol
  /-- No cell is listed twice as a conflict. -/
  nodup_conflicts : (collection.table.conflicts.map fun c => (c.row, c.symbol)).Nodup

/-- The collection of a grammar that has been read can be built for every shift-reduce algorithm, and
its table holds exactly what the states ask for, in the order of priority. -/
theorem exists_followsStates {text : String} (hread : Grammar.read text = .ok g)
    (halgorithm : algorithm ∈ Algorithm.shiftReduce) :
    ∃ collection, build g (FirstFollow.compute g) algorithm = .ok collection ∧
      FollowsStates g algorithm collection := by
  have hend := Grammar.avoidsEndMarker_of_read hread
  obtain ⟨collection, hbuild, -⟩ := exists_built g halgorithm
  exact ⟨collection, hbuild,
    { headers_eq := headers_eq halgorithm hbuild
      alternatives_eq := fun _ hs => exists_alternatives_eq halgorithm hbuild hs
      mem_headers := fun _ _ _ => exists_state_of_get? halgorithm hbuild
      not_isConflict_goto := fun _ _ hn _ => not_isConflict_of_goto halgorithm hbuild hend hn
      mem_conflicts_iff := fun _ => mem_conflicts_iff_alternatives
      nodup_conflicts := nodup_conflicts collection.table }⟩

/-- After a sum a further summand may be read, or the sum reduced. That the rule for `id` is written
twice makes no conflict. -/
theorem exists_followsStates_sums :
    Grammar.read "E -> E + E | id | id" = .ok .sums ∧ Algorithm.slr1 ∈ Algorithm.shiftReduce ∧
    ∃ collection, build .sums (FirstFollow.compute .sums) .slr1 = .ok collection ∧
      FollowsStates .sums .slr1 collection ∧
      collection.table.conflicts.map Conflict.text =
        ["shift/reduce conflict in state 4 on symbol '+': s3 vs r(E -> E + E)"] := by
  have hslr1 : Algorithm.slr1 ∈ Algorithm.shiftReduce := by decide
  obtain ⟨collection, hbuild, hfollows⟩ := exists_followsStates Grammar.read_sums hslr1
  have htexts : (build .sums (FirstFollow.compute .sums) .slr1).toOption.map
      (fun c => c.table.conflicts.map Conflict.text) =
        some ["shift/reduce conflict in state 4 on symbol '+': s3 vs r(E -> E + E)"] := by
    decide +kernel
  rw [hbuild] at htexts
  exact ⟨Grammar.read_sums, hslr1, collection, hbuild, hfollows, Option.some.inj htexts⟩

end Collection

end TableParsing
