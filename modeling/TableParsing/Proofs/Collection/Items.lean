import TableParsing.Proofs.Collection.Construction

/-!
# The items of a collection

Every item in a state is a production, or the added one, with a dot in its body, and its lookahead
is a terminal or the end marker where items have lookaheads (`IsItem`). The item of the added start
symbol is one, and advancing and calling lead from such items to such items, so the closures and
gotos have no others (`isItem_start`, `isItem_goto`).

There are finitely many such items (`allItems`), and states with different sets of them are at
most two to that number; so the bound of the construction is never reached, and at its end all
states have been processed (`linked_construct`).
-/

namespace TableParsing

/-! ## The system of items of a grammar -/

namespace ItemSystem

/-- The items of a grammar with its computed FIRST sets. -/
def computed (g : Grammar) (hasLookahead : Bool) : ItemSystem :=
  ⟨g, (FirstFollow.compute g).first, hasLookahead⟩

variable {g : Grammar} {hasLookahead : Bool}

@[simp] theorem grammar_computed : (computed g hasLookahead).grammar = g := rfl

@[simp] theorem hasLookahead_computed :
    (computed g hasLookahead).hasLookahead = hasLookahead := rfl

/-- The items of each shift-reduce algorithm. -/
theorem ofAlgorithm_eq {algorithm : Algorithm} (h : algorithm ∈ Algorithm.shiftReduce) :
    ofAlgorithm g (FirstFollow.compute g) algorithm = .ok (computed g (algorithm = .lr1)) := by
  cases algorithm with
  | ll1 => simp [Algorithm.shiftReduce] at h
  | lr0 | slr1 | lr1 => rfl

/-! ## Items that occur -/

/-- The lookaheads that items can have. -/
def allLookaheads (system : ItemSystem) : List (Option Symbol) :=
  if system.hasLookahead then (system.grammar.terminals ++ [endMarker]).map some else [none]

/-- The lookahead of the item of the added start symbol. -/
def startLookahead (system : ItemSystem) : Option Symbol :=
  if system.hasLookahead then some endMarker else none

/-- A production with a dot at one of its places and a lookahead that items can have. -/
def IsItem (system : ItemSystem) (x : NumberedItem) : Prop :=
  ∃ p ∈ system.grammar.allProductions, ∃ place ≤ p.body.length,
    ∃ lookahead ∈ system.allLookaheads, x = .dotted p place lookahead

/-- There is one lookahead, or one for each terminal and the end marker. -/
theorem length_allLookaheads_le (system : ItemSystem) :
    system.allLookaheads.length ≤ system.grammar.terminals.length + 1 := by
  unfold allLookaheads
  split
  · rw [List.length_map, List.length_append, List.length_singleton]
  · exact Nat.succ_le_succ (Nat.zero_le _)

/-- The end of the input is a lookahead. -/
theorem startLookahead_mem (system : ItemSystem) :
    system.startLookahead ∈ system.allLookaheads := by
  rw [startLookahead, allLookaheads]
  split
  · exact List.mem_map_of_mem (List.mem_append_right _ List.mem_cons_self)
  · exact List.mem_singleton_self none

/-- The symbols behind the one after a dot begin with terminals. -/
theorem mem_terminals_of_mem_trailer {p : Production} (hp : p ∈ g.allProductions) {place : Nat}
    {s : Symbol}
    (hs : s ∈ FirstFollow.firstOfSequence (FirstFollow.compute g).first (p.body.drop (place + 1)))
    (hne : s ≠ epsilon) : s ∈ g.terminals := by
  have hmem := (FirstFollow.firstInRange_compute g).mem_firstOfSequence (fun t ht => ?_) hs
  · exact hmem.resolve_left hne
  · exact Or.inr
      (Grammar.isNonTerminal_or_mem_terminals_of_mem_body hp (List.mem_of_mem_drop ht))

/-- An item calls for items. -/
theorem IsItem.called {x y : NumberedItem} (hx : IsItem (computed g hasLookahead) x)
    (hy : y ∈ (computed g hasLookahead).calledFor x.toItem) :
    IsItem (computed g hasLookahead) y := by
  obtain ⟨p, hp, place, hplace, lookahead, hl, rfl⟩ := hx
  obtain ⟨q, hq, -, lookahead', hl', rfl⟩ := mem_calledFor.mp hy
  refine ⟨q, List.mem_cons_of_mem _ hq, 0, Nat.zero_le _, lookahead', ?_, rfl⟩
  cases hasLookahead with
  | false =>
      rw [lookaheads_of_not rfl, List.mem_singleton] at hl'
      rw [hl']
      exact List.mem_singleton_self none
  | true =>
      obtain ⟨s, rfl, hs⟩ := (mem_lookaheads rfl).mp hl'
      rw [allLookaheads, hasLookahead_computed, if_pos rfl] at hl ⊢
      rcases hs with ⟨hfirst, hne⟩ | ⟨-, hown⟩
      · change s ∈ FirstFollow.firstOfSequence _ (Item.dotted p.toRule place lookahead).trailer
          at hfirst
        rw [Item.trailer_dotted] at hfirst
        exact List.mem_map_of_mem
          (List.mem_append_left _ (mem_terminals_of_mem_trailer hp hfirst hne))
      · rwa [← show lookahead = some s from hown]

/-- An item that expects a symbol can advance. -/
theorem IsItem.advance {system : ItemSystem} {x : NumberedItem} (hx : IsItem system x)
    {symbol : Symbol} (hnext : x.next? = some symbol) : IsItem system x.advance := by
  obtain ⟨p, hp, place, -, lookahead, hl, rfl⟩ := hx
  change (Item.dotted p.toRule place lookahead).next? = _ at hnext
  rw [Item.next?_dotted] at hnext
  exact ⟨p, hp, place + 1, (List.getElem?_eq_some_iff.mp hnext).1, lookahead, hl, rfl⟩

/-- The closure of the item of the added start symbol has items only. -/
theorem isItem_start :
    ∀ x ∈ (computed g hasLookahead).start (computed g hasLookahead).startLookahead,
      IsItem (computed g hasLookahead) x := by
  refine forall_mem_closure (fun x hx => ?_) fun x hx y hy => hx.called hy
  rw [List.mem_singleton.mp hx]
  exact ⟨g.augmentedProduction, List.mem_cons_self, 0, Nat.zero_le _, _, startLookahead_mem _, rfl⟩

/-- The goto of items has items only. -/
theorem isItem_goto {items : List NumberedItem}
    (hitems : ∀ x ∈ items, IsItem (computed g hasLookahead) x) (symbol : Symbol) :
    ∀ x ∈ (computed g hasLookahead).goto items symbol, IsItem (computed g hasLookahead) x := by
  refine forall_mem_closure (fun x hx => ?_) fun x hx y hy => hx.called hy
  obtain ⟨y, hy, rfl⟩ := List.mem_map.mp hx
  obtain ⟨hmem, hnext⟩ := List.mem_filter.mp hy
  exact (hitems y hmem).advance (of_decide_eq_true hnext)

/-! ## The number of items -/

/-- All items of a system. -/
def allItems (system : ItemSystem) : List Item :=
  system.grammar.allProductions.flatMap fun p =>
    (List.range (p.body.length + 1)).flatMap fun place =>
      system.allLookaheads.map (Item.dotted p.toRule place)

/-- Items are among all items. -/
theorem IsItem.mem_allItems {system : ItemSystem} {x : NumberedItem} (hx : IsItem system x) :
    x.toItem ∈ system.allItems := by
  obtain ⟨p, hp, place, hplace, lookahead, hl, rfl⟩ := hx
  refine List.mem_flatMap.mpr ⟨p, hp, List.mem_flatMap.mpr ⟨place, ?_, List.mem_map_of_mem hl⟩⟩
  exact List.mem_range.mpr (Nat.lt_succ_of_le hplace)

/-- The places of the dots, for each lookahead. -/
theorem length_allItems (system : ItemSystem) :
    system.allItems.length =
      (system.grammar.allProductions.map fun p => p.body.length + 1).sum *
        system.allLookaheads.length := by
  rw [allItems, List.length_flatMap, ← List.sum_map_mul_right]
  congr 1
  apply List.map_congr_left
  intro p _
  rw [List.length_flatMap]
  simp

/-- The places for dots in the productions. -/
theorem sum_places_le (g : Grammar) :
    (g.allProductions.map fun p => p.body.length + 1).sum ≤
      (g.rules.flatMap Rule.body).length + g.rules.length + 2 := by
  have hrules : (g.productions.map fun p => p.body.length + 1) =
      g.rules.map fun r => r.body.length + 1 := by
    rw [← g.map_toRule_productions, List.map_map]
    rfl
  have hbody : g.augmentedProduction.body.length ≤ 1 := List.length_filter_le _ [g.startSymbol]
  rw [Grammar.allProductions, List.map_cons, List.sum_cons, hrules, List.sum_map_add,
    List.length_flatMap, List.map_const', List.sum_replicate, smul_eq_mul, mul_one]
  omega

end ItemSystem

/-! ## The number of states -/

namespace Collection

open ItemSystem

variable {system : ItemSystem} {place : Nat} {done : List Symbol} {states : List State}
  {g : Grammar} {hasLookahead : Bool}

/-- What holds of the items of the added start symbol, and of the items of a goto if it holds of
the items before it, holds of the items of every state. -/
theorem Linked.induct (h : Linked system place done states) {P : List NumberedItem → Prop}
    (hstart : P (firstState system).items)
    (hgoto : ∀ items symbol, P items → P (system.goto items symbol)) :
    ∀ (i : Nat) (s : State), states[i]? = some s → P s.items := by
  intro i
  induction i using Nat.strong_induction_on with
  | _ i ih =>
      intro s hs
      rcases h.reached i s hs with rfl | ⟨j, t, symbol, hlt, ht, -, hitems⟩
      · obtain ⟨s', hs', hitems⟩ := h.first
        rw [hs] at hs'
        cases hs'
        rwa [hitems]
      · rw [hitems]
        exact hgoto _ _ (ih j hlt t ht)

/-- The states of a grammar have items only. -/
theorem Linked.isItem (h : Linked (computed g hasLookahead) place done states) {s : State}
    (hs : s ∈ states) : ∀ x ∈ s.items, IsItem (computed g hasLookahead) x := by
  obtain ⟨i, hi⟩ := List.getElem?_of_mem hs
  exact h.induct (P := fun items => ∀ x ∈ items, IsItem (computed g hasLookahead) x) isItem_start
    (fun items symbol hitems => isItem_goto hitems symbol) i s hi

/-- The states have different sets of items. -/
theorem Linked.nodup_map_itemSet (h : Linked system place done states) :
    (states.map fun s => NumberedItem.itemSet s.items).Nodup := by
  rw [List.nodup_iff_getElem?_ne_getElem?]
  intro i j hij hj heq
  rw [List.length_map] at hj
  rw [List.getElem?_map, List.getElem?_map, List.getElem?_eq_getElem hj,
    List.getElem?_eq_getElem (hij.trans hj), Option.map_some, Option.map_some,
    Option.some.injEq] at heq
  exact Nat.ne_of_lt hij (h.distinct i j _ _ (List.getElem?_eq_getElem (hij.trans hj))
    (List.getElem?_eq_getElem hj) (NumberedItem.itemSet_eq_iff.mp heq))

/-- There are no more states than sets of items. -/
theorem Linked.length_le (h : Linked (computed g hasLookahead) place done states) :
    states.length ≤ stateBound g := by
  have hsub : (states.map fun s => NumberedItem.itemSet s.items).toFinset ⊆
      (computed g hasLookahead).allItems.toFinset.powerset := by
    intro items hitems
    obtain ⟨s, hs, rfl⟩ := List.mem_map.mp (List.mem_toFinset.mp hitems)
    rw [Finset.mem_powerset]
    intro item hitem
    obtain ⟨x, hx, rfl⟩ := List.mem_map.mp (List.mem_toFinset.mp hitem)
    exact List.mem_toFinset.mpr (h.isItem hs x hx).mem_allItems
  have hcount : (computed g hasLookahead).allItems.toFinset.card ≤
      ((g.rules.flatMap Rule.body).length + g.rules.length + 2) * (g.terminals.length + 1) := by
    apply (List.toFinset_card_le _).trans
    rw [length_allItems]
    exact Nat.mul_le_mul (sum_places_le g) (length_allLookaheads_le _)
  calc
    states.length = (states.map fun s => NumberedItem.itemSet s.items).toFinset.card := by
      rw [List.toFinset_card_of_nodup h.nodup_map_itemSet, List.length_map]
    _ ≤ (computed g hasLookahead).allItems.toFinset.powerset.card := Finset.card_le_card hsub
    _ = 2 ^ (computed g hasLookahead).allItems.toFinset.card := Finset.card_powerset _
    _ ≤ stateBound g := Nat.pow_le_pow_right (by omega) hcount

/-- If all states have been processed, nothing is pending. -/
theorem Linked.finished (h : Linked system place [] states) (hlength : states.length ≤ place) :
    Linked system states.length [] states where
  first := h.first
  id := h.id
  keys := by
    intro i s hs
    have hi := (List.getElem?_eq_some_iff.mp hs).1
    rw [h.keys i s hs, linkedSymbols, linkedSymbols, if_pos (by omega), if_pos hi]
  target := h.target
  distinct := h.distinct
  reached := h.reached

/-- **The construction is complete**: all states have been processed. -/
theorem linked_construct (g : Grammar) (hasLookahead : Bool) :
    Linked (computed g hasLookahead) (construct (computed g hasLookahead)).states.length []
      (construct (computed g hasLookahead)).states := by
  obtain ⟨last, hlast, hend⟩ := underway_construct (computed g hasLookahead)
  apply hlast.linked.finished
  rcases hend with hend | rfl
  · exact hend
  · exact hlast.linked.length_le

end Collection

end TableParsing
