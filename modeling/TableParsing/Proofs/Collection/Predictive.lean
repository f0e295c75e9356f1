import TableParsing.Proofs.Collection.Cores
import TableParsing.Proofs.Collection.ItemPaths
import TableParsing.Proofs.Collection.Numbers
import TableParsing.Proofs.Collection.Validity
import TableParsing.Proofs.Table.Predictive

/-!
# Predictive grammars have no conflicts

If no cell of the predictive table of a grammar is overwritten, and all its non-terminals derive
words, the LR(1) table of the grammar has no conflicts (`conflicts_eq_nil_of_predictive`).

Two actions that meet in a cell belong to two items of a state that await the same symbol. Both
items are reached along the same symbols. On the way to them the predictive table decides what is
called for, because a production that is called for predicts what comes next
(`Reaches.mem_predicted`). So the two ways can only part where one item advances over a non-terminal
and the other calls for a production of it, and then reads the same non-terminal at once: the
grammar is left-recursive there. But in a complete tree of that non-terminal the predictive table
would find the same productions again, and below them a smaller tree of it
(`Reaches.exists_smaller`), and so on without end. Hence the two items are the same up to their
lookaheads (`Reaches.core_eq`).
-/

namespace TableParsing

open FirstFollow ItemSystem

variable {g : Grammar}

/-! ## Trees before a symbol -/

/-- A complete tree of a non-terminal, with the symbol that comes next before the tree and something
that may follow it. -/
structure Tree.Placed (g : Grammar) (next : Symbol) (t : Tree) : Prop where
  /-- The tree is finished. -/
  isComplete : t.IsComplete g
  /-- The root has rules. -/
  isNonTerminal : g.isNonTerminal t.label = true
  /-- What comes next does so before something that may follow. -/
  exists_following : ∃ following ∈ setOf (compute g).follow t.label, nextAfter [t] following = next

section predictive

variable (hε : g.isNonTerminal epsilon = false)
  (hclean : (Table.predictive g (compute g)).overwrites = [])
include hε hclean

/-- The production that predicts the next symbol is at the root of the tree, and below it a smaller
tree before the same symbol, if the body begins with a non-terminal. -/
theorem Tree.Placed.exists_child {next : Symbol} {t : Tree} (h : t.Placed g next) {p : Production}
    (hp : p ∈ g.productions) (hlhs : t.label = p.lhs)
    (hpredicted : next ∈ Table.predicted (compute g) p) {s : Symbol} {after : List Symbol}
    (hbody : p.body = s :: after) (hs : g.isNonTerminal s = true) :
    ∃ u : Tree, u.Placed g next ∧ u.label = s ∧ u.innerCount < t.innerCount := by
  obtain ⟨following, hfollowing, hnext⟩ := h.exists_following
  have hn := h.isNonTerminal
  cases h.isComplete with
  | leaf id hleaf => exact absurd rfl (Grammar.ne_of_isNonTerminal hn hleaf)
  | @node id r hr children hlabels hchildren =>
      obtain ⟨q, hq, rfl⟩ := Grammar.exists_production hr
      rw [Tree.label_node] at hlhs hfollowing
      have hne := Tree.IsDerivation.children_ne_nil hlabels
      rw [nextAfter_node hne] at hnext
      have hpredicted' := lookahead_mem_predicted hε hlabels hchildren hfollowing
      rw [hnext] at hpredicted'
      obtain rfl := Table.eq_of_mem_predicted hclean hq hp hlhs hpredicted' hpredicted
      rw [Rule.shown_of_body_ne_nil (by rw [hbody]; exact List.cons_ne_nil _ _), hbody] at hlabels
      obtain ⟨u, rest, rfl, rfl, hrest⟩ := List.map_eq_cons_iff.mp hlabels
      refine ⟨u, ⟨hchildren u List.mem_cons_self, hs, nextAfter rest following, ?_, ?_⟩, rfl, ?_⟩
      · have hsplit : ([] ++ u :: rest).map Tree.label = q.body := hlabels.trans hbody.symm
        exact lookahead_mem_follow hε hr hsplit
          (fun v hv => hchildren v (List.mem_cons_of_mem _ hv)) hs hfollowing
      · rw [← nextAfter_cons, hnext]
      · rw [Tree.innerCount, Tree.innerCount, Tree.inner_node hne, List.flatMap_cons,
          List.length_cons, List.length_append]
        omega

/-! ## Ways to the same symbol -/

section ways

variable {item other last last' : Item} {called called' : NumberedItem} {s next : Symbol}
  {symbols : List Symbol} {trees : List Tree}

/-- A production that leads over a non-terminal first is found at the root of every tree of its
left-hand side, with a smaller tree of that non-terminal below it. -/
theorem ItemSystem.Reaches.exists_smaller
    (h : (computed g true).Reaches item (s :: symbols) last) (hawaits : last.Awaits g next)
    (hs : g.isNonTerminal s = true) (htrees : ∀ t ∈ trees, t.IsComplete g)
    (hlabels : trees.map Tree.label = s :: symbols) :
    ∀ {p : Production} {following : Symbol} {t : Tree}, p ∈ g.productions →
      item = .dotted p.toRule 0 (some following) → MayFollow g p.lhs following →
        t.Placed g (nextAfter trees next) → t.label = p.lhs →
          ∃ u : Tree, u.Placed g (nextAfter trees next) ∧ u.label = s ∧
            u.innerCount < t.innerCount := by
  generalize hall : s :: symbols = all at h hlabels
  induction h with
  | refl => cases hall
  | advance hnext rest =>
      rintro p following t hp rfl hfollowing ht hroot
      cases hall
      have hpredicted :=
        mem_predicted hε hp hfollowing (.advance hnext rest) hawaits htrees hlabels
      exact ht.exists_child hε hclean hp hroot hpredicted (Item.drop_eq_of_next? hnext) hs
  | call hcalled rest ih =>
      rintro p following t hp rfl hfollowing ht hroot
      have hpredicted :=
        mem_predicted hε hp hfollowing (.call hcalled rest) hawaits htrees hlabels
      obtain ⟨q, hq, following', hnext, rfl, hfollowing'⟩ :=
        Follows.exists_called ⟨p, List.mem_cons_of_mem _ hp, 0, following, rfl, hfollowing⟩ hcalled
      obtain ⟨u, hu, hlabel, hlt⟩ := ht.exists_child hε hclean hp hroot hpredicted
        (Item.drop_eq_of_next? hnext) (Grammar.isNonTerminal_lhs (Grammar.toRule_mem_rules hq))
      obtain ⟨v, hv, hlabel', hlt'⟩ := ih hawaits hall hlabels hq rfl hfollowing' hu hlabel
      exact ⟨v, hv, hlabel', hlt'.trans hlt⟩

/-- No tree stands before the next symbol, if a production of its root leads over that root first:
there would always be a smaller one. -/
theorem not_placed_of_reaches {p : Production} {following : Symbol} (hp : p ∈ g.productions)
    (hfollowing : MayFollow g p.lhs following)
    (h : (computed g true).Reaches (.dotted p.toRule 0 (some following)) (p.lhs :: symbols) last)
    (hawaits : last.Awaits g next) (htrees : ∀ t ∈ trees, t.IsComplete g)
    (hlabels : trees.map Tree.label = p.lhs :: symbols) {t : Tree} (hroot : t.label = p.lhs) :
    ¬ t.Placed g (nextAfter trees next) := by
  have hn := Grammar.isNonTerminal_lhs (Grammar.toRule_mem_rules hp)
  induction hcount : t.innerCount using Nat.strong_induction_on generalizing t with
  | _ count ih =>
      intro ht
      obtain ⟨u, hu, hlabel, hlt⟩ :=
        h.exists_smaller hε hclean hawaits hn htrees hlabels hp rfl hfollowing ht hroot
      exact ih _ (hcount ▸ hlt) hlabel rfl hu

omit hclean in
/-- A tree that an item goes on after stands before the next symbol. -/
theorem placed_of_reaches (hfollows : Follows g item) {p : Production} (hp : p ∈ g.productions)
    (hnext : item.next? = some p.lhs) (hrest : (computed g true).Reaches item.advance symbols last)
    (hawaits : last.Awaits g next) {t : Tree} (ht : t.IsComplete g) (hroot : t.label = p.lhs)
    (htrees : ∀ u ∈ trees, u.IsComplete g) (hlabels : trees.map Tree.label = symbols) :
    t.Placed g (nextAfter (t :: trees) next) := by
  obtain ⟨q, hq, place, following, rfl, hfollowing⟩ := hfollows
  have hforetells := hrest.foretells hε hawaits rfl htrees hlabels
  have hmay := MayFollow.of_foretells hq hp (Item.body_eq_of_next? hnext) hfollowing hforetells
  refine ⟨ht, ?_, nextAfter trees next, ?_, (nextAfter_cons t trees next).symm⟩
  · rw [hroot]
    exact Grammar.isNonTerminal_lhs (Grammar.toRule_mem_rules hp)
  · rw [hroot]
    exact (MayFollow.iff_mem_follow hp).mp hmay

/-- Where an item advances over a non-terminal, no other one calls for a production that leads over
the same symbols to where the same symbol is awaited. -/
theorem not_reaches_of_advance (hfollows : Follows g item) (hnext : item.next? = some s)
    (hrest : (computed g true).Reaches item.advance symbols last) (hawaits : last.Awaits g next)
    (hfollows' : Follows g other) (hnext' : other.next? = some s)
    (hcalled : called ∈ (computed g true).calledFor other)
    (hreaches : (computed g true).Reaches called.toItem (s :: symbols) last')
    (hawaits' : last'.Awaits g next) (htrees : ∀ t ∈ trees, t.IsComplete g)
    (hlabels : trees.map Tree.label = s :: symbols) : False := by
  obtain ⟨p, hp, following, hcall, rfl, hfollowing⟩ := hfollows'.exists_called hcalled
  obtain rfl := Option.some.inj (hnext'.symm.trans hcall)
  have hnone := fun t : Tree => not_placed_of_reaches hε hclean hp hfollowing hreaches hawaits'
    htrees hlabels (t := t)
  obtain ⟨t, rest, rfl, hroot, hrest_labels⟩ := List.map_eq_cons_iff.mp hlabels
  exact hnone t hroot (placed_of_reaches hε hfollows hp hnext hrest hawaits
    (htrees t List.mem_cons_self) hroot (fun u hu => htrees u (List.mem_cons_of_mem _ hu))
    hrest_labels)

/-- Two items with the same symbol after their dots call for the production that predicts what comes
next. -/
theorem core_eq_of_called (hfollows : Follows g item) (hfollows' : Follows g other)
    (hnext : other.next? = item.next?) (hcalled : called ∈ (computed g true).calledFor item)
    (hcalled' : called' ∈ (computed g true).calledFor other)
    (hrest : (computed g true).Reaches called.toItem symbols last) (hawaits : last.Awaits g next)
    (hrest' : (computed g true).Reaches called'.toItem symbols last')
    (hawaits' : last'.Awaits g next) (htrees : ∀ t ∈ trees, t.IsComplete g)
    (hlabels : trees.map Tree.label = symbols) : called'.toItem.core = called.toItem.core := by
  obtain ⟨p, hp, following, hcall, rfl, hfollowing⟩ := hfollows.exists_called hcalled
  obtain ⟨q, hq, following', hcall', rfl, hfollowing'⟩ := hfollows'.exists_called hcalled'
  have hlhs : p.lhs = q.lhs := Option.some.inj (hcall.symm.trans (hnext.symm.trans hcall'))
  have hpredicted := hrest.mem_predicted hε hp hfollowing hawaits htrees hlabels
  have hpredicted' := hrest'.mem_predicted hε hq hfollowing' hawaits' htrees hlabels
  obtain rfl := Table.eq_of_mem_predicted hclean hp hq hlhs hpredicted hpredicted'
  rfl

/-- Items that are the same up to their lookaheads lead along the same symbols to items that are the
same up to their lookaheads, if these await the same symbol. -/
theorem ItemSystem.Reaches.core_eq (h : (computed g true).Reaches item symbols last)
    (hawaits : last.Awaits g next) (h' : (computed g true).Reaches other symbols last')
    (hawaits' : last'.Awaits g next) (hfollows : Follows g item) (hfollows' : Follows g other)
    (hcore : other.core = item.core) (htrees : ∀ t ∈ trees, t.IsComplete g)
    (hlabels : trees.map Tree.label = symbols) : last'.core = last.core := by
  induction h generalizing other trees with
  | refl item =>
      cases h' with
      | refl => exact hcore
      | call hcalled _ =>
          exact absurd hcalled (not_mem_calledFor hawaits (Item.next?_eq_of_core_eq hcore) _)
  | advance hnext rest ih =>
      cases h' with
      | advance _ rest' =>
          obtain ⟨t, others, rfl, -, hothers⟩ := List.map_eq_cons_iff.mp hlabels
          exact ih hawaits rest' hfollows.advance hfollows'.advance
            (by rw [← Item.advance_core, hcore, Item.advance_core])
            (fun u hu => htrees u (List.mem_cons_of_mem _ hu)) hothers
      | call hcalled rest' =>
          have hnext' := (Item.next?_eq_of_core_eq hcore).trans hnext
          exact (not_reaches_of_advance hε hclean hfollows hnext rest hawaits hfollows' hnext'
            hcalled rest' hawaits' htrees hlabels).elim
  | call hcalled rest ih =>
      cases h' with
      | refl =>
          exact absurd hcalled (not_mem_calledFor hawaits' (Item.next?_eq_of_core_eq hcore).symm _)
      | advance hnext' rest' =>
          have hnext := (Item.next?_eq_of_core_eq hcore).symm.trans hnext'
          exact (not_reaches_of_advance hε hclean hfollows' hnext' rest' hawaits' hfollows hnext
            hcalled rest hawaits htrees hlabels).elim
      | call hcalled' rest' =>
          have hcalled_core := core_eq_of_called hε hclean hfollows hfollows'
            (Item.next?_eq_of_core_eq hcore) hcalled hcalled' rest hawaits rest' hawaits' htrees
            hlabels
          exact ih hawaits rest' (hfollows.called hcalled) (hfollows'.called hcalled') hcalled_core
            htrees hlabels

end ways

/-! ## Actions that meet -/

namespace Collection

open Table

variable {states : List State} {s : State} {symbol : Symbol} {a b : Action}
  (hproductive : g.Productive) (hlinked : Linked (computed g true) states.length [] states)
include hproductive hlinked

/-- Items of a state that await the same symbol are the same up to their lookaheads. -/
theorem core_eq_of_holds {number : Int} {item other : Item} (hholds : Holds states number item)
    (hawaits : item.Awaits g symbol) (hholds' : Holds states number other)
    (hawaits' : other.Awaits g symbol) : other.core = item.core := by
  obtain ⟨s, hs, rfl, -⟩ := id hholds
  obtain ⟨symbols, hleads⟩ := hlinked.exists_leads hs
  have hform : g.IsForm symbols := by
    have hvalid := valid_of_holds hε hproductive hlinked hleads item hholds
    obtain ⟨behind, hderives⟩ := hvalid.exists_derives hε
    exact (Grammar.isForm_append.mp (g.isForm_startSymbol.derives hderives)).1
  obtain ⟨trees, htrees, hlabels⟩ := hproductive.exists_forest hε hform
  exact (hlinked.reaches_of_leads hleads hholds).core_eq hε hclean hawaits
    (hlinked.reaches_of_leads hleads hholds') hawaits' (Follows.start g) (Follows.start g) rfl
    htrees hlabels

variable (hs : s ∈ states)
include hs

/-- The items of a state ask for one action under a symbol. -/
theorem eq_of_itemEntry {x y : NumberedItem} (hx : x ∈ s.items) (hy : y ∈ s.items)
    (ha : ItemEntry g .lr1 x symbol a) (hb : ItemEntry g .lr1 y symbol b) : a = b := by
  have hcore := core_eq_of_holds hε hclean hproductive hlinked
    ⟨s, hs, rfl, List.mem_map_of_mem hx⟩ (Or.inr ha.awaits)
    ⟨s, hs, rfl, List.mem_map_of_mem hy⟩ (Or.inr hb.awaits)
  have hitem : y.toItem = x.toItem :=
    Item.eq_of_core_eq hcore (hb.awaits.2.trans ha.awaits.2.symm)
  obtain rfl := List.inj_on_of_nodup_map (hlinked.nodup_items hs) hy hx hitem
  exact ha.unique hb

/-- Where a symbol is read, no item asks for an action under it. -/
theorem not_itemEntry_of_get? (hn : g.isNonTerminal symbol = false) {next : Int}
    (hget : s.transitions.get? symbol = some next) {x : NumberedItem} (hx : x ∈ s.items) :
    ¬ ItemEntry g .lr1 x symbol a := by
  intro ha
  obtain ⟨item, hholds, hnext⟩ := hlinked.exists_holds_of_goes ⟨s, hs, rfl, hget⟩
  have hcore := core_eq_of_holds hε hclean hproductive hlinked hholds (Or.inl ⟨hnext, hn⟩)
    ⟨s, hs, rfl, List.mem_map_of_mem hx⟩ (Or.inr ha.awaits)
  have hnone := ha.awaits.1
  rw [Item.next?_eq_of_core_eq hcore, hnext] at hnone
  cases hnone

/-- Under a symbol without rules a state asks for one action. -/
theorem eq_of_rowEntry_terminal (hn : g.isNonTerminal symbol = false)
    (ha : RowEntry g .lr1 s symbol a) (hb : RowEntry g .lr1 s symbol b) : a = b := by
  cases ha with
  | goto _ hn' => exact absurd rfl (Grammar.ne_of_isNonTerminal hn' hn)
  | shift hget _ =>
      cases hb with
      | goto _ hn' => exact absurd rfl (Grammar.ne_of_isNonTerminal hn' hn)
      | shift hget' _ =>
          rw [hget] at hget'
          rw [Option.some.inj hget']
      | item hy hb =>
          exact absurd hb (not_itemEntry_of_get? hε hclean hproductive hlinked hs hn hget hy)
  | item hx ha =>
      cases hb with
      | goto _ hn' => exact absurd rfl (Grammar.ne_of_isNonTerminal hn' hn)
      | shift hget _ =>
          exact absurd ha (not_itemEntry_of_get? hε hclean hproductive hlinked hs hn hget hx)
      | item hy hb => exact eq_of_itemEntry hε hclean hproductive hlinked hs hx hy ha hb

end Collection

end predictive

/-! ## A grammar that needs lookaheads -/

namespace Grammar

/-- Two non-terminals without bodies, which only the next symbol tells apart. -/
def twins : Grammar where
  rules := [⟨"S", ["A", "a", "A", "b"]⟩, ⟨"S", ["B", "b", "B", "a"]⟩, ⟨"A", ["ε"]⟩, ⟨"B", ["ε"]⟩]
  rules_ne_nil := List.cons_ne_nil _ _
  skipped := []

/-- The text of the twins. -/
theorem read_twins : read "S -> A a A b | B b B a\nA -> ε\nB -> ε" = .ok twins := rfl

/-- The twins derive two words. -/
theorem productive_twins : twins.Productive := by
  have hA : twins.Derives ["A"] [] := .of_rule (r := ⟨"A", ["ε"]⟩) (by decide)
  have hB : twins.Derives ["B"] [] := .of_rule (r := ⟨"B", ["ε"]⟩) (by decide)
  have hS : twins.Derives ["S"] ["a", "b"] :=
    (Derives.of_rule (r := ⟨"S", ["A", "a", "A", "b"]⟩) (by decide)).trans
      ((hA.append (.refl ["a"])).append (hA.append (.refl ["b"])))
  intro s hs
  have hs : s = "S" ∨ s = "A" ∨ s = "B" := by
    simpa [twins, nonTerminals, distinct, distinctBy] using hs
  rcases hs with rfl | rfl | rfl
  · have hw : ∀ t ∈ ["a", "b"], t ∈ twins.terminals := by decide +kernel
    exact ⟨["a", "b"], hw, hS⟩
  · exact ⟨[], isWord_nil, hA⟩
  · exact ⟨[], isWord_nil, hB⟩

end Grammar

/-! ## The theorem -/

namespace Collection

/-- A grammar is read from a text, the empty marker is not one of its left-hand sides, and every
non-terminal derives a word. If no cell of its predictive table is overwritten, the LR(1) collection
can be built and its table has no conflicts. -/
theorem conflicts_eq_nil_of_predictive {text : String} (hread : Grammar.read text = .ok g)
    (hε : epsilon ∉ g.nonTerminals) (hproductive : g.Productive)
    (hclean : (Table.predictive g (compute g)).overwrites = []) :
    ∃ collection, build g (compute g) .lr1 = .ok collection ∧ collection.table.conflicts = [] := by
  have hend := Grammar.avoidsEndMarker_of_read hread
  have hε' := Grammar.not_isNonTerminal_epsilon hε
  have hlr1 : Algorithm.lr1 ∈ Algorithm.shiftReduce := by decide
  obtain ⟨collection, hbuild, hbuilt⟩ := exists_built g hlr1
  refine ⟨collection, hbuild, (conflicts_eq_nil_iff hlr1 hbuild).mpr ?_⟩
  intro s hs symbol a b ha hb
  cases hn : g.isNonTerminal symbol with
  | true => exact hbuilt.eq_of_rowEntry_nonTerminal hend hs hn ha hb
  | false => exact eq_of_rowEntry_terminal hε' hclean hproductive hbuilt.linked hs hn ha hb

/-- The twins are predictive, and have conflicts in a table without lookaheads only. -/
theorem conflicts_eq_nil_of_predictive_twins :
    epsilon ∉ Grammar.twins.nonTerminals ∧ Grammar.twins.Productive ∧
    (Table.predictive .twins (compute .twins)).overwrites = [] ∧
    (build .twins (compute .twins) .slr1).toOption.map (fun c => c.table.conflicts.length) =
      some 2 ∧
    ∃ collection, build .twins (compute .twins) .lr1 = .ok collection ∧
      collection.table.conflicts = [] := by
  have hε : epsilon ∉ Grammar.twins.nonTerminals := by decide +kernel
  have hclean : (Table.predictive .twins (compute .twins)).overwrites = [] := by decide +kernel
  exact ⟨hε, Grammar.productive_twins, hclean, by decide +kernel,
    conflicts_eq_nil_of_predictive Grammar.read_twins hε Grammar.productive_twins hclean⟩

end Collection

end TableParsing
