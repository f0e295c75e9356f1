import TableParsing.Proofs.Collection.Automaton
import TableParsing.Proofs.Item.Least
import TableParsing.Proofs.Table.ShiftReduce

/-!
# The numbers of items

Productions that differ only in empty markers, or not at all, have the same items, and a list of
items keeps one of them. It is the item of the first such production: an item calls for the
productions in their order, and of the items that are called for the first ones are kept
(`IsLeading.of_mem_newItems`). So the number of an item in a state depends on the item only, and not
on the way to it (`Linked.isLeading`), and two states that hold an item have the same production for
it (`eq_of_isLeading`).
-/

namespace TableParsing

open NumberedItem (toItem InOrder)

variable {g : Grammar} {hasLookahead : Bool}

/-! ## Items of least number -/

/-- The item has the least number of all productions with its left-hand side and its body. -/
def NumberedItem.IsLeading (g : Grammar) (x : NumberedItem) : Prop :=
  ∀ q ∈ g.allProductions, q.lhs = x.lhs → q.body = x.rhs → x.index ≤ q.index

/-- Productions that are the same up to empty markers, and both lead, are the same. -/
theorem NumberedItem.eq_of_isLeading {p q : Production} (hp : p ∈ g.allProductions)
    (hq : q ∈ g.allProductions) (hlhs : p.lhs = q.lhs) (hbody : p.body = q.body)
    {place place' : Nat} {lookahead lookahead' : Option Symbol}
    (hpl : (dotted p place lookahead).IsLeading g)
    (hql : (dotted q place' lookahead').IsLeading g) : p = q := by
  by_cases haug : p.lhs = g.augmentedStart
  · rw [Grammar.eq_augmentedProduction hp haug, Grammar.eq_augmentedProduction hq (hlhs ▸ haug)]
  · have hp' := Grammar.mem_productions_of_lhs_ne hp haug
    have hq' := Grammar.mem_productions_of_lhs_ne hq (hlhs ▸ haug)
    exact Grammar.eq_of_index_eq hp' hq'
      (Int.le_antisymm (hpl q hq hlhs.symm hbody.symm) (hql p hp hlhs hbody))

/-! ## Called items -/

namespace ItemSystem

variable {system : ItemSystem}

/-- The lookaheads of called items are different. -/
theorem nodup_lookaheads (item : Item) : (system.lookaheads item).Nodup := by
  unfold lookaheads
  split
  · exact (SymbolSet.nodup_toList _).map (Option.some_injective _)
  · exact List.nodup_singleton none

/-- Called items that are the same are numbered in their order. -/
theorem pairwise_calledFor (item : Item) :
    (system.calledFor item).Pairwise fun x y => x.toItem = y.toItem → x.index ≤ y.index := by
  unfold calledFor
  split
  · exact List.Pairwise.nil
  · rw [List.pairwise_flatMap]
    constructor
    · intro lookahead _
      rw [List.pairwise_map]
      refine (system.grammar.pairwise_index_productions.filter _).imp ?_
      intro p q hindex _
      exact hindex.le
    · refine (nodup_lookaheads item).imp ?_
      intro lookahead lookahead' hne x hx y hy hsame
      obtain ⟨p, -, rfl⟩ := List.mem_map.mp hx
      obtain ⟨q, -, rfl⟩ := List.mem_map.mp hy
      exact absurd (Item.dotted_inj.mp hsame).2.2.2 hne

end ItemSystem

open ItemSystem

namespace NumberedItem.IsLeading

/-- New items among the called ones lead. -/
theorem of_mem_newItems {system : ItemSystem} {item : Item} {seen : List NumberedItem}
    {x : NumberedItem} (hx : x ∈ newItems seen (system.calledFor item)) :
    x.IsLeading system.grammar := by
  intro q hq hlhs hbody
  have hcandidate : x ∈ (system.calledFor item).filter fun y => !y.isIn seen :=
    (distinctBy_sublist _ _).mem hx
  obtain ⟨hcalled, hnew⟩ := List.mem_filter.mp hcandidate
  obtain ⟨p, hp, hnext, lookahead, hl, rfl⟩ := mem_calledFor.mp hcalled
  have hq' : q ∈ system.grammar.productions := by
    apply Grammar.mem_productions_of_lhs_ne hq
    rw [hlhs]
    exact Grammar.lhs_ne_augmentedStart hp
  -- The item of the other production is called for as well, and it is the same item.
  have hsame : (dotted p 0 lookahead).toItem = (dotted q 0 lookahead).toItem :=
    Item.dotted_inj.mpr ⟨hlhs.symm, hbody.symm, rfl, rfl⟩
  have hother : dotted q 0 lookahead ∈ system.calledFor item :=
    mem_calledFor.mpr ⟨q, hq', by rw [hnext]; exact congrArg some hlhs.symm, lookahead, hl, rfl⟩
  have hother' : dotted q 0 lookahead ∈
      (system.calledFor item).filter fun y => !y.isIn seen := by
    refine List.mem_filter.mpr ⟨hother, ?_⟩
    rwa [isIn, ← hsame]
  exact rel_of_mem_distinctBy (R := fun x y : NumberedItem => x.index ≤ y.index)
    (fun _ => Int.le_refl _) _ ((pairwise_calledFor item).filter _) hx _ hother' hsame

/-- The closure of items that lead has only such items. -/
theorem closure {system : ItemSystem} {items : List NumberedItem}
    (hitems : ∀ x ∈ items, x.IsLeading system.grammar) :
    ∀ x ∈ system.closure items, x.IsLeading system.grammar :=
  forall_mem_closure_of_newItems hitems fun _ _ _ _ hy => of_mem_newItems hy

end NumberedItem.IsLeading

/-! ## States -/

namespace Collection.Linked

variable {states : List State} (h : Linked (computed g hasLookahead) states.length [] states)
include h

/-- The items of a state lead. -/
theorem isLeading {s : State} (hs : s ∈ states) : ∀ x ∈ s.items, x.IsLeading g := by
  obtain ⟨i, hi⟩ := List.getElem?_of_mem hs
  refine h.induct (P := fun items => ∀ x ∈ items, x.IsLeading g) ?_ ?_ i s hi
  · apply NumberedItem.IsLeading.closure
    intro x hx q hq hlhs _
    rw [List.mem_singleton.mp hx] at hlhs ⊢
    rw [Grammar.eq_augmentedProduction hq hlhs]
    exact Int.le_refl _
  · intro items symbol hitems
    apply NumberedItem.IsLeading.closure
    intro x hx
    obtain ⟨y, hy, rfl⟩ := List.mem_map.mp hx
    exact hitems y (List.mem_filter.mp hy).1

/-- No state has an item twice. -/
theorem nodup_items {s : State} (hs : s ∈ states) : (s.items.map toItem).Nodup := by
  obtain ⟨i, hi⟩ := List.getElem?_of_mem hs
  exact h.induct (P := fun items => (items.map toItem).Nodup) (nodup_closure _ _)
    (fun _ _ _ => nodup_closure _ _) i s hi

/-- The items of a state are in order. -/
theorem inOrder_items {s : State} (hs : s ∈ states) : InOrder s.items := by
  obtain ⟨i, hi⟩ := List.getElem?_of_mem hs
  exact h.induct (P := InOrder) (inOrder_closure _ _) (fun _ _ _ => inOrder_closure _ _) i s hi

/-- A held item of a production that leads is in the list of the state with the number of that
production. -/
theorem mem_items_of_holds {s : State} (hs : s ∈ states) {p : Production}
    (hp : p ∈ g.allProductions) {place place' : Nat} {lookahead lookahead' : Option Symbol}
    (hleading : (NumberedItem.dotted p place' lookahead').IsLeading g)
    (hholds : Holds states s.id (.dotted p.toRule place lookahead)) :
    NumberedItem.dotted p place lookahead ∈ s.items := by
  obtain ⟨t, ht, hid, q, hq, hlhs, hbody, hx⟩ := h.exists_mem_items_of_holds hholds
  rw [h.eq_of_id_eq ht hs hid] at hx
  obtain rfl := NumberedItem.eq_of_isLeading hq hp hlhs hbody (h.isLeading hs _ hx) hleading
  exact hx

end Collection.Linked

end TableParsing
