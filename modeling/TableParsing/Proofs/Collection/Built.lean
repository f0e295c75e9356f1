import TableParsing.Proofs.Collection.Automaton
import TableParsing.Proofs.Table.ShiftReduce

/-!
# The cells of a collection

A collection can be built for every shift-reduce algorithm (`exists_built`), and an action is a
choice of a cell of its table iff the state of the row asks for it. From this, what the machine
executes by states and symbols: an action that it finds has its reason in the state (`of_shift`,
`of_goto`, `of_reduce`, `of_accept`), and gotos are always found (`goto_of_goes`). If the table has
no conflicts, whatever a state asks for is found (`shift_of_goes`, `exists_reduce_of_holds`,
`accept_of_holds`). A cell is a conflict iff its state asks for two actions (`conflictAt_iff`), so
there are no conflicts iff no state does (`conflicts_eq_nil_iff`).
-/

namespace TableParsing

namespace Collection

open Table ItemSystem NumberedItem

/-- The collection of a grammar for an algorithm: the states are finished, and the cells have what
they ask for. -/
structure Built (g : Grammar) (algorithm : Algorithm) (collection : Collection) : Prop where
  /-- All states have been processed. -/
  linked : Linked (computed g (algorithm = .lr1)) collection.states.length [] collection.states
  /-- The choices of the cells. -/
  choice_iff : ∀ number symbol a,
    (∃ cell, collection.table.get? (.state number) symbol = some cell ∧ a ∈ cell.choices) ↔
      ∃ s ∈ collection.states, s.id = number ∧ RowEntry g algorithm s symbol a

/-- The collection of an algorithm has the states of the construction, and its table has the entries
that these ask for. -/
theorem exists_entries (g : Grammar) {algorithm : Algorithm}
    (halgorithm : algorithm ∈ Algorithm.shiftReduce) :
    ∃ collection entries, build g (FirstFollow.compute g) algorithm = .ok collection ∧
      Linked (computed g (algorithm = .lr1)) collection.states.length [] collection.states ∧
      allEntries g (FirstFollow.compute g) algorithm g.augmentedProduction collection.states =
        .ok entries ∧
      collection.table = addAll
        (withRows algorithm (g.terminals ++ [endMarker]) g.nonTerminals
          (collection.states.map fun s => .state s.id)) entries ∧
      (∀ entry ∈ entries, entry.2.2.isConflict = false) ∧
      ∀ row symbol a, (row, symbol, a) ∈ entries ↔
        ∃ s ∈ collection.states, row = .state s.id ∧ RowEntry g algorithm s symbol a := by
  have hlinked := linked_construct g (algorithm = .lr1)
  obtain ⟨entries, hentries, hmem⟩ := exists_allEntries algorithm _ fun s hs =>
    hlinked.isItem hs
  obtain ⟨collection, hbuild, hstates, htable⟩ : ∃ collection : Collection,
      build g (FirstFollow.compute g) algorithm = .ok collection ∧
      collection.states = (construct (computed g (algorithm = .lr1))).states ∧
      collection.table = addAll
        (withRows algorithm (g.terminals ++ [endMarker]) g.nonTerminals
          ((construct (computed g (algorithm = .lr1))).states.map fun s => .state s.id))
        entries := by
    rw [build, ofAlgorithm_eq halgorithm]
    simp only
    rw [shiftReduce, hentries]
    exact ⟨_, rfl, rfl, rfl⟩
  have hplain : ∀ entry ∈ entries, entry.2.2.isConflict = false := by
    intro entry hentry
    obtain ⟨s, -, -, h⟩ := (hmem entry.1 entry.2.1 entry.2.2).mp hentry
    exact h.not_isConflict
  rw [← hstates] at hlinked hentries htable hmem
  exact ⟨collection, entries, hbuild, hlinked, hentries, htable, hplain, hmem⟩

/-- The collection can be built for every shift-reduce algorithm. -/
theorem exists_built (g : Grammar) {algorithm : Algorithm}
    (halgorithm : algorithm ∈ Algorithm.shiftReduce) :
    ∃ collection, build g (FirstFollow.compute g) algorithm = .ok collection ∧
      Built g algorithm collection := by
  obtain ⟨collection, entries, hbuild, hlinked, -, htable, hplain, hmem⟩ :=
    exists_entries g halgorithm
  refine ⟨collection, hbuild, ⟨hlinked, fun number symbol a => ?_⟩⟩
  rw [htable, exists_choice_addAll_iff (get?_withRows _ _ _ _ _ _) hplain, hmem]
  simp only [Row.state.injEq, eq_comm]

/-- The table of a collection is for the algorithm of the collection. -/
theorem algorithm_table {g : Grammar} {sets : FirstFollow} {algorithm : Algorithm}
    {collection : Collection} (hbuild : build g sets algorithm = .ok collection) :
    collection.table.algorithm = algorithm := by
  unfold build at hbuild
  cases hsystem : ItemSystem.ofAlgorithm g sets algorithm with
  | error failure => simp [hsystem] at hbuild
  | ok system =>
      simp only [hsystem] at hbuild
      unfold Table.shiftReduce at hbuild
      cases hentries : allEntries g sets algorithm g.augmentedProduction
          (construct system).states with
      | error failure =>
          rw [hentries] at hbuild
          cases hbuild
      | ok entries =>
          rw [hentries] at hbuild
          cases hbuild
          exact algorithm_addAll entries _

/-- The alternatives of a cell of a collection are the actions that the state of its row asks for. -/
theorem mem_alternatives_iff_rowEntry {g : Grammar} {algorithm : Algorithm}
    (halgorithm : algorithm ∈ Algorithm.shiftReduce) {collection : Collection}
    (hbuild : build g (FirstFollow.compute g) algorithm = .ok collection) {row : Row}
    {symbol : Symbol} {a : Action} :
    a ∈ collection.table.alternatives row symbol ↔
      ∃ s ∈ collection.states, row = .state s.id ∧ RowEntry g algorithm s symbol a := by
  obtain ⟨collection', entries, hbuild', -, -, htable, hplain, hmem⟩ := exists_entries g halgorithm
  obtain rfl : collection' = collection := Except.ok.inj (hbuild'.symm.trans hbuild)
  rw [mem_alternatives_iff, htable, exists_choice_addAll_iff (get?_withRows _ _ _ _ _ _) hplain,
    hmem]

/-- The alternatives in the row of a state are the actions that the state asks for. -/
theorem mem_alternatives_state_iff {g : Grammar} {algorithm : Algorithm}
    (halgorithm : algorithm ∈ Algorithm.shiftReduce) {collection : Collection}
    (hbuild : build g (FirstFollow.compute g) algorithm = .ok collection) {s : State}
    (hs : s ∈ collection.states) {symbol : Symbol} {a : Action} :
    a ∈ collection.table.alternatives (.state s.id) symbol ↔ RowEntry g algorithm s symbol a := by
  obtain ⟨collection', hbuild', hbuilt⟩ := exists_built g halgorithm
  obtain rfl : collection' = collection := Except.ok.inj (hbuild'.symm.trans hbuild)
  rw [mem_alternatives_iff_rowEntry halgorithm hbuild]
  constructor
  · rintro ⟨t, ht, hid, hentry⟩
    rwa [hbuilt.linked.eq_of_id_eq ht hs (Row.state.inj hid).symm] at hentry
  · exact fun hentry => ⟨s, hs, rfl, hentry⟩

/-- No alternative of a cell of a collection is repeated. -/
theorem nodup_alternatives {g : Grammar} {algorithm : Algorithm}
    (halgorithm : algorithm ∈ Algorithm.shiftReduce) {collection : Collection}
    (hbuild : build g (FirstFollow.compute g) algorithm = .ok collection) (row : Row)
    (symbol : Symbol) : (collection.table.alternatives row symbol).Nodup := by
  obtain ⟨collection', entries, hbuild', -, -, htable, hplain, -⟩ := exists_entries g halgorithm
  obtain rfl : collection' = collection := Except.ok.inj (hbuild'.symm.trans hbuild)
  rw [htable]
  exact nodup_alternatives_addAll (get?_withRows _ _ _ _ _ _) hplain

/-- A cell of a collection is a conflict iff the state of its row asks for two different actions under
its symbol. -/
theorem conflictAt_iff {g : Grammar} {algorithm : Algorithm}
    (halgorithm : algorithm ∈ Algorithm.shiftReduce) {collection : Collection}
    (hbuild : build g (FirstFollow.compute g) algorithm = .ok collection) {row : Row}
    {symbol : Symbol} :
    collection.table.ConflictAt row symbol ↔
      ∃ s ∈ collection.states, row = .state s.id ∧ ∃ a b, a ≠ b ∧
        RowEntry g algorithm s symbol a ∧ RowEntry g algorithm s symbol b := by
  constructor
  · rintro ⟨cell, hcell, hconflict⟩
    have hnodup := nodup_alternatives halgorithm hbuild row symbol
    rw [alternatives_of_get? hcell] at hnodup
    obtain ⟨a, ha, b, hb, hne⟩ := Action.exists_ne_of_isConflict hconflict hnodup
    rw [← alternatives_of_get? hcell] at ha hb
    obtain ⟨s, hs, rfl, hentry⟩ := (mem_alternatives_iff_rowEntry halgorithm hbuild).mp ha
    exact ⟨s, hs, rfl, a, b, hne, hentry, (mem_alternatives_state_iff halgorithm hbuild hs).mp hb⟩
  · rintro ⟨s, hs, rfl, a, b, hne, hentry, hentry'⟩
    have ha := (mem_alternatives_state_iff halgorithm hbuild hs).mpr hentry
    have hb := (mem_alternatives_state_iff halgorithm hbuild hs).mpr hentry'
    obtain ⟨cell, hcell, -⟩ := mem_alternatives_iff.mp ha
    rw [alternatives_of_get? hcell] at ha hb
    refine ⟨cell, hcell, ?_⟩
    rw [← Bool.not_eq_false]
    intro hplain
    rw [Action.choices_of_not_isConflict hplain, List.mem_singleton] at ha hb
    exact hne (ha.trans hb.symm)

/-- The table of a collection has no conflicts iff no state asks for two different actions under one
symbol. -/
theorem conflicts_eq_nil_iff {g : Grammar} {algorithm : Algorithm}
    (halgorithm : algorithm ∈ Algorithm.shiftReduce) {collection : Collection}
    (hbuild : build g (FirstFollow.compute g) algorithm = .ok collection) :
    collection.table.conflicts = [] ↔
      ∀ s ∈ collection.states, ∀ symbol a b, RowEntry g algorithm s symbol a →
        RowEntry g algorithm s symbol b → a = b := by
  rw [conflicts_eq_nil_iff_not_conflictAt]
  constructor
  · intro hclean s hs symbol a b ha hb
    by_contra hne
    exact hclean _ symbol
      ((conflictAt_iff halgorithm hbuild).mpr ⟨s, hs, rfl, a, b, hne, ha, hb⟩)
  · intro hunique row symbol hconflict
    obtain ⟨s, hs, -, a, b, hne, ha, hb⟩ := (conflictAt_iff halgorithm hbuild).mp hconflict
    exact hne (hunique s hs symbol a b ha hb)

namespace Built

variable {g : Grammar} {algorithm : Algorithm} {collection : Collection}
  (h : Built g algorithm collection)
include h

/-! ## What the machine finds -/

/-- What the machine finds in a cell, the state of the row asks for. -/
theorem exists_rowEntry {number : Int} {symbol : Symbol} {a : Action}
    (hcell : (collection.table.get? (.state number) symbol).map Action.primary = some a) :
    ∃ s ∈ collection.states, s.id = number ∧ RowEntry g algorithm s symbol a := by
  obtain ⟨cell, hget, rfl⟩ := Option.map_eq_some_iff.mp hcell
  exact (h.choice_iff _ _ _).mp ⟨cell, hget, cell.primary_mem_choices⟩

/-- A state asks for actions under the symbols of the grammar and the end marker. -/
theorem symbol_cases_of_rowEntry {s : State} (hs : s ∈ collection.states) {symbol : Symbol}
    {a : Action} (hentry : RowEntry g algorithm s symbol a) :
    (g.isNonTerminal symbol = true ∨ symbol ∈ g.terminals) ∨ symbol = endMarker := by
  cases hentry with
  | shift hget | goto hget => exact Or.inl (h.linked.symbol_cases_of_goes ⟨s, hs, rfl, hget⟩)
  | item hx hentry =>
      cases hentry with
      | accept _ hsymbol _ => exact Or.inr hsymbol
      | reduce hp hxp hmay =>
          subst hxp
          exact (symbol_cases_of_mayReduce (h.linked.isItem hs _ hx) hmay).imp_left Or.inr

/-- A shift that is found follows a transition on a symbol without rules. -/
theorem of_shift {number next : Int} {symbol : Symbol}
    (hcell : (collection.table.get? (.state number) symbol).map Action.primary =
      some (.shift next)) :
    Goes collection.states number symbol next ∧ g.isNonTerminal symbol = false := by
  obtain ⟨s, hs, hid, hentry⟩ := h.exists_rowEntry hcell
  cases hentry with
  | shift hget hterminal => exact ⟨⟨s, hs, hid, hget⟩, hterminal⟩
  | item _ hentry => cases hentry

/-- A symbol for which a shift is found is a terminal. -/
theorem mem_terminals_of_shift {number next : Int} {symbol : Symbol}
    (hcell : (collection.table.get? (.state number) symbol).map Action.primary =
      some (.shift next)) : symbol ∈ g.terminals := by
  obtain ⟨hgoes, hterminal⟩ := h.of_shift hcell
  apply (h.linked.symbol_cases_of_goes hgoes).resolve_left
  rw [hterminal]
  exact Bool.false_ne_true

/-- A goto that is found follows a transition on a non-terminal. -/
theorem of_goto {number next : Int} {symbol : Symbol}
    (hcell : (collection.table.get? (.state number) symbol).map Action.primary =
      some (.goto next)) :
    Goes collection.states number symbol next ∧ g.isNonTerminal symbol = true := by
  obtain ⟨s, hs, hid, hentry⟩ := h.exists_rowEntry hcell
  cases hentry with
  | goto hget hn => exact ⟨⟨s, hs, hid, hget⟩, hn⟩
  | item _ hentry => cases hentry

/-- A reduction that is found belongs to a complete item that allows it. -/
theorem of_reduce {number : Int} {symbol : Symbol} {p : Production}
    (hcell : (collection.table.get? (.state number) symbol).map Action.primary =
      some (.reduce p)) :
    p ∈ g.productions ∧ ∃ lookahead,
      Holds collection.states number (.dotted p.toRule p.body.length lookahead) ∧
        MayReduce g algorithm p.lhs lookahead symbol := by
  obtain ⟨s, hs, hid, hentry⟩ := h.exists_rowEntry hcell
  cases hentry with
  | item hx hentry =>
      cases hentry with
      | reduce hp hxp hmay =>
          subst hxp
          exact ⟨hp, _, ⟨s, hs, hid, List.mem_map_of_mem hx⟩, hmay⟩

/-- An acceptance that is found belongs to the complete item of the added start symbol. -/
theorem of_accept {number : Int} {symbol : Symbol}
    (hcell : (collection.table.get? (.state number) symbol).map Action.primary = some .accept) :
    ∃ lookahead, Holds collection.states number
      (.dotted g.augmentedProduction.toRule g.augmentedProduction.body.length lookahead) := by
  obtain ⟨s, hs, hid, hentry⟩ := h.exists_rowEntry hcell
  cases hentry with
  | item hx hentry =>
      cases hentry with
      | accept hxp _ _ =>
          subst hxp
          exact ⟨_, s, hs, hid, List.mem_map_of_mem hx⟩

/-- An acceptance is found in the column of the end marker only. -/
theorem eq_endMarker_of_accept {number : Int} {symbol : Symbol}
    (hcell : (collection.table.get? (.state number) symbol).map Action.primary = some .accept) :
    symbol = endMarker := by
  obtain ⟨s, -, -, hentry⟩ := h.exists_rowEntry hcell
  cases hentry with
  | item _ hentry =>
      cases hentry with
      | accept _ hsymbol _ => exact hsymbol

/-- Under a non-terminal a state asks for nothing but the goto. -/
theorem exists_goto_of_rowEntry (hend : g.AvoidsEndMarker) {s : State}
    (hs : s ∈ collection.states) {symbol : Symbol} (hn : g.isNonTerminal symbol = true)
    {a : Action} (hentry : RowEntry g algorithm s symbol a) :
    ∃ next, s.transitions.get? symbol = some next ∧ a = .goto next := by
  have hterminal : symbol ∉ g.terminals := Grammar.not_mem_terminals_of_isNonTerminal hn
  have hmarker : symbol ≠ endMarker := Grammar.ne_of_isNonTerminal hn hend.not_isNonTerminal
  cases hentry with
  | shift _ hnone => exact absurd rfl (Grammar.ne_of_isNonTerminal hn hnone)
  | goto hget _ => exact ⟨_, hget, rfl⟩
  | item hx hentry =>
      cases hentry with
      | accept _ hsymbol _ => exact absurd hsymbol hmarker
      | reduce hp hxp hmay =>
          subst hxp
          have hitem := h.linked.isItem hs _ hx
          exact ((symbol_cases_of_mayReduce hitem hmay).elim hterminal hmarker).elim

/-- Under a non-terminal a state asks for one action. -/
theorem eq_of_rowEntry_nonTerminal (hend : g.AvoidsEndMarker) {s : State}
    (hs : s ∈ collection.states) {symbol : Symbol} (hn : g.isNonTerminal symbol = true)
    {a b : Action} (ha : RowEntry g algorithm s symbol a)
    (hb : RowEntry g algorithm s symbol b) : a = b := by
  obtain ⟨next, hget, rfl⟩ := h.exists_goto_of_rowEntry hend hs hn ha
  obtain ⟨next', hget', rfl⟩ := h.exists_goto_of_rowEntry hend hs hn hb
  rw [hget] at hget'
  rw [Option.some.inj hget']

/-- Where a non-terminal leads on, its goto is found. -/
theorem goto_of_goes (hend : g.AvoidsEndMarker) {number next : Int} {symbol : Symbol}
    (hn : g.isNonTerminal symbol = true) (hgoes : Goes collection.states number symbol next) :
    (collection.table.get? (.state number) symbol).map Action.primary = some (.goto next) := by
  obtain ⟨s, hs, hid, hget⟩ := hgoes
  obtain ⟨cell, hcell, -⟩ := (h.choice_iff number symbol (.goto next)).mpr
    ⟨s, hs, hid, .goto hget hn⟩
  have hprimary : (collection.table.get? (.state number) symbol).map Action.primary =
      some cell.primary := by rw [hcell, Option.map_some]
  obtain ⟨s', hs', hid', hentry⟩ := h.exists_rowEntry hprimary
  obtain ⟨next', hget', ha⟩ := h.exists_goto_of_rowEntry hend hs' hn hentry
  rw [h.linked.eq_of_id_eq hs' hs (hid'.trans hid.symm), hget] at hget'
  rw [hprimary, ha, Option.some.inj hget']

/-! ## Tables without conflicts -/

section clean

variable (hclean : collection.table.conflicts = [])
include hclean

/-- Without conflicts, what a state asks for is found. -/
theorem primary_of_rowEntry {s : State} (hs : s ∈ collection.states) {symbol : Symbol}
    {a : Action} (hentry : RowEntry g algorithm s symbol a) :
    (collection.table.get? (.state s.id) symbol).map Action.primary = some a := by
  obtain ⟨cell, hcell, ha⟩ := (h.choice_iff s.id symbol a).mpr ⟨s, hs, rfl, hentry⟩
  have hplain := hentry.not_isConflict
  rw [get?_of_choice hclean hcell ha, Option.map_some]
  cases a with
  | conflict => cases hplain
  | _ => rfl

/-- Without conflicts, the shift on a symbol without rules that leads on is found. -/
theorem shift_of_goes {number next : Int} {symbol : Symbol}
    (hterminal : g.isNonTerminal symbol = false)
    (hgoes : Goes collection.states number symbol next) :
    (collection.table.get? (.state number) symbol).map Action.primary = some (.shift next) := by
  obtain ⟨s, hs, rfl, hget⟩ := hgoes
  exact h.primary_of_rowEntry hclean hs (.shift hget hterminal)

/-- Without conflicts, a reduction by the rule of a complete item is found. -/
theorem exists_reduce_of_holds {number : Int} {p : Production} (hp : p ∈ g.productions)
    {lookahead : Option Symbol}
    (hholds : Holds collection.states number (.dotted p.toRule p.body.length lookahead))
    {symbol : Symbol} (hmay : MayReduce g algorithm p.lhs lookahead symbol) :
    ∃ q, q.lhs = p.lhs ∧ q.body = p.body ∧
      (collection.table.get? (.state number) symbol).map Action.primary = some (.reduce q) := by
  obtain ⟨s, hs, rfl, q, hq, hlhs, hbody, hx⟩ := h.linked.exists_mem_items_of_holds hholds
  have hq' : q ∈ g.productions := by
    apply Grammar.mem_productions_of_lhs_ne hq
    rw [hlhs]
    exact Grammar.lhs_ne_augmentedStart hp
  refine ⟨q, hlhs, hbody, h.primary_of_rowEntry hclean hs (.item hx ?_)⟩
  rw [← hbody]
  exact (itemEntry_production_iff hq').mpr ⟨by rwa [hlhs], rfl⟩

/-- Without conflicts, the acceptance of the complete item of the added start symbol is found. -/
theorem accept_of_holds {number : Int} {lookahead : Option Symbol}
    (hholds : Holds collection.states number
      (.dotted g.augmentedProduction.toRule g.augmentedProduction.body.length lookahead))
    (hlookahead : algorithm ≠ .lr1 ∨ lookahead = some endMarker) :
    (collection.table.get? (.state number) endMarker).map Action.primary = some .accept := by
  obtain ⟨s, hs, rfl, q, hq, hlhs, -, hx⟩ := h.linked.exists_mem_items_of_holds hholds
  obtain rfl := Grammar.eq_augmentedProduction hq hlhs
  exact h.primary_of_rowEntry hclean hs
    (.item hx (itemEntry_augmented_iff.mpr ⟨rfl, rfl, hlookahead⟩))

end clean

end Built

end Collection

end TableParsing
