import TableParsing.Proofs.Item.Closure

/-!
# Least closed lists of items

The closure of a list of items is the least set of items that has the given ones and all that its
members call for (`Obtainable`), and it is listed in one form only: without repetitions, and in the
order of the numbers, the dots and the lookaheads (`IsClosure`). So closing it again changes
nothing, and the closure of two lists together is the union of their closures
(`exists_isClosure`).

What an item calls for is said by the symbols before and behind the non-terminal after its dot, so
the dots have to be counted from the front of the body. All else about the given items is free:
they need not belong to productions of the grammar.
-/

namespace TableParsing

/-! ## The order of items -/

namespace NumberedItem

/-- What items are sorted by: the number of the production, the place of the dot, and the lookahead,
where none counts as the empty word. -/
def sortKey (x : NumberedItem) : ℤ ×ₗ ℤ ×ₗ String :=
  toLex (x.index, toLex (x.dot, x.lookahead.getD ""))

/-- The keys of the items do not decrease. -/
def InOrder (items : List NumberedItem) : Prop := items.Pairwise fun x y => x.sortKey ≤ y.sortKey

/-- The numbers of items that are in order do not decrease. -/
theorem InOrder.pairwise_index {items : List NumberedItem} (h : InOrder items) :
    items.Pairwise fun x y => x.index ≤ y.index := by
  refine h.imp ?_
  intro x y hkey
  rw [sortKey, sortKey, Prod.Lex.toLex_le_toLex] at hkey
  exact hkey.elim le_of_lt fun hkey => hkey.1.le

/-- An item is listed no later than another iff its key is not greater. -/
theorem le_iff {x y : NumberedItem} : x.le y = true ↔ x.sortKey ≤ y.sortKey := by
  have hlast : (!(decide (y.lookahead.getD "" < x.lookahead.getD ""))) = true ↔
      x.lookahead.getD "" ≤ y.lookahead.getD "" := by
    rw [Bool.not_eq_true', decide_eq_false_iff_not, not_lt]
  rw [le, sortKey, sortKey, Prod.Lex.toLex_le_toLex, Prod.Lex.toLex_le_toLex]
  simp only
  rcases lt_trichotomy x.index y.index with hindex | hindex | hindex
  · simp only [hindex, if_true, true_or]
  · rcases lt_trichotomy x.dot y.dot with hdot | hdot | hdot
    · simp only [hindex, hdot, lt_irrefl, if_true, if_false, true_or, or_true, and_self]
    · simp only [hindex, hdot, lt_irrefl, if_false, false_or, true_and, hlast]
    · simp only [hindex, hdot, hdot.not_gt, hdot.ne', lt_irrefl, if_true, if_false,
        Bool.false_eq_true, false_and, or_false, and_false]
  · simp only [hindex, hindex.not_gt, hindex.ne', if_true, if_false, Bool.false_eq_true, false_and,
      or_false]

/-- Insertion at its place keeps the order. -/
theorem inOrder_insertSorted (item : NumberedItem) :
    (items : List NumberedItem) → InOrder items → InOrder (insertSorted item items)
  | [], _ => List.pairwise_singleton _ item
  | other :: rest, h => by
      obtain ⟨hother, hrest⟩ := List.pairwise_cons.mp h
      unfold insertSorted
      split
      · next hle =>
          rw [le_iff] at hle
          exact List.pairwise_cons.mpr
            ⟨List.forall_mem_cons.mpr ⟨hle, fun y hy => hle.trans (hother y hy)⟩, h⟩
      · next hle =>
          rw [le_iff, not_le] at hle
          refine List.pairwise_cons.mpr ⟨fun y hy => ?_, inOrder_insertSorted item rest hrest⟩
          rcases List.mem_cons.mp ((insertSorted_perm item rest).mem_iff.mp hy) with rfl | hy
          · exact hle.le
          · exact hother y hy

/-- Sorted items are in order. -/
theorem inOrder_sort : (items : List NumberedItem) → InOrder (sort items)
  | [] => List.Pairwise.nil
  | item :: items => inOrder_insertSorted item _ (inOrder_sort items)

/-- Items that are in order are not moved. -/
theorem sort_eq_self : (items : List NumberedItem) → InOrder items → sort items = items
  | [], _ => rfl
  | [_], _ => rfl
  | item :: other :: rest, h => by
      obtain ⟨hitem, hrest⟩ := List.pairwise_cons.mp h
      have ih := sort_eq_self (other :: rest) hrest
      show insertSorted item (sort (other :: rest)) = _
      rw [ih, insertSorted, if_pos (le_iff.mpr (hitem other List.mem_cons_self))]

end NumberedItem

namespace ItemSystem

open NumberedItem (toItem itemSet InOrder)

variable {g : Grammar} {sets : FirstFollow} {algorithm : Algorithm} {system : ItemSystem}
  {items others : List NumberedItem}

/-- The closure is in order. -/
theorem inOrder_closure (system : ItemSystem) (items : List NumberedItem) :
    InOrder (system.closure items) := NumberedItem.inOrder_sort _

/-! ## Obtainable items -/

/-- The lookaheads that an item gives to the productions of the non-terminal after its dot: the
symbols that what is behind the non-terminal begins with and, if that derives the empty word, the
lookahead of the item. Without lookaheads in items there is nothing to give. -/
inductive Gives (sets : FirstFollow) (algorithm : Algorithm) (behind : List Symbol)
    (own : Option Symbol) : Option Symbol → Prop
  | nothing (h : algorithm ≠ .lr1) : Gives sets algorithm behind own none
  | begins (h : algorithm = .lr1) {s : Symbol} (hs : s ∈ sets.ofSequence behind)
      (hne : s ≠ epsilon) : Gives sets algorithm behind own (some s)
  | own (h : algorithm = .lr1) {s : Symbol} (hε : epsilon ∈ sets.ofSequence behind)
      (hown : own = some s) : Gives sets algorithm behind own (some s)

/-- The items that come from the given ones by finitely many calls: an item with a non-terminal after
its dot calls for the first items of all productions of that non-terminal. -/
inductive Obtainable (g : Grammar) (sets : FirstFollow) (algorithm : Algorithm)
    (items : List NumberedItem) : Item → Prop
  | given {x : NumberedItem} (hx : x ∈ items) : Obtainable g sets algorithm items x.toItem
  | called {lhs : Symbol} {before behind : List Symbol} {own lookahead : Option Symbol}
      {p : Production} (hp : p ∈ g.productions)
      (h : Obtainable g sets algorithm items
        ⟨lhs, before ++ p.lhs :: behind, before.length, own⟩)
      (hgives : Gives sets algorithm behind own lookahead) :
      Obtainable g sets algorithm items ⟨p.lhs, p.body, 0, lookahead⟩

/-- What is obtainable from two lists together is obtainable from one of them, because a call has one
caller. -/
theorem obtainable_append_iff {item : Item} :
    Obtainable g sets algorithm (items ++ others) item ↔
      Obtainable g sets algorithm items item ∨ Obtainable g sets algorithm others item := by
  constructor
  · intro h
    induction h with
    | given hx => exact (List.mem_append.mp hx).imp .given .given
    | called hp _ hgives ih => exact ih.imp (.called hp · hgives) (.called hp · hgives)
  · rintro (h | h)
    · induction h with
      | given hx => exact .given (List.mem_append_left _ hx)
      | called hp _ hgives ih => exact .called hp ih hgives
    · induction h with
      | given hx => exact .given (List.mem_append_right _ hx)
      | called hp _ hgives ih => exact .called hp ih hgives

/-- An item that expects a symbol has it behind the symbols before the dot. -/
theorem exists_eq_of_next? {item : Item} (hdot : 0 ≤ item.dot) {s : Symbol}
    (hnext : item.next? = some s) :
    ∃ before : List Symbol,
      item = ⟨item.lhs, before ++ s :: item.trailer, before.length, item.lookahead⟩ := by
  rw [Item.next?_of_nonneg hdot, List.getElem?_eq_some_iff] at hnext
  obtain ⟨hlt, rfl⟩ := hnext
  refine ⟨item.rhs.take item.dot.toNat, ?_⟩
  have hlength : ((item.rhs.take item.dot.toNat).length : Int) = item.dot := by
    rw [List.length_take]
    omega
  rw [Item.trailer_of_nonneg hdot, ← List.drop_eq_getElem_cons hlt, List.take_append_drop, hlength]

/-- The lookaheads of called items are those that their caller gives. -/
theorem mem_lookaheads_iff_gives (hsystem : ofAlgorithm g sets algorithm = .ok system)
    {item : Item} {lookahead : Option Symbol} :
    lookahead ∈ system.lookaheads item ↔
      Gives sets algorithm item.trailer item.lookahead lookahead := by
  have hplain : system.hasLookahead = false → algorithm ≠ .lr1 →
      (lookahead ∈ system.lookaheads item ↔
        Gives sets algorithm item.trailer item.lookahead lookahead) := by
    intro hhas hne
    rw [lookaheads_of_not hhas, List.mem_singleton]
    constructor
    · rintro rfl
      exact .nothing hne
    · intro h
      cases h with
      | nothing => rfl
      | begins h | own h => exact absurd h hne
  cases algorithm with
  | ll1 => cases hsystem
  | lr0 | slr1 =>
      cases hsystem
      exact hplain rfl Algorithm.noConfusion
  | lr1 =>
      cases hsystem
      rw [mem_lookaheads rfl]
      constructor
      · rintro ⟨s, rfl, ⟨hs, hne⟩ | ⟨hε, hown⟩⟩
        · exact .begins rfl hs hne
        · exact .own rfl hε hown
      · intro h
        cases h with
        | nothing hne => exact absurd rfl hne
        | begins _ hs hne => exact ⟨_, rfl, Or.inl ⟨hs, hne⟩⟩
        | own _ hε hown => exact ⟨_, rfl, Or.inr ⟨hε, hown⟩⟩

/-- The system of an algorithm has the grammar it is made for. -/
theorem grammar_of_ofAlgorithm (hsystem : ofAlgorithm g sets algorithm = .ok system) :
    system.grammar = g := by
  cases algorithm <;> cases hsystem <;> rfl

/-- Dots that are counted from the front stay so in the closure. -/
theorem nonneg_of_mem_closure (hitems : ∀ x ∈ items, 0 ≤ x.dot) :
    ∀ x ∈ system.closure items, 0 ≤ x.dot := by
  refine forall_mem_closure hitems fun x _ y hy => ?_
  obtain ⟨p, -, -, lookahead, -, rfl⟩ := mem_calledFor.mp hy
  exact Int.le_refl 0

/-- The closure has exactly the obtainable items. -/
theorem mem_map_closure_iff (hsystem : ofAlgorithm g sets algorithm = .ok system)
    (hitems : ∀ x ∈ items, 0 ≤ x.dot) {item : Item} :
    item ∈ (system.closure items).map toItem ↔ Obtainable g sets algorithm items item := by
  have hgrammar := grammar_of_ofAlgorithm hsystem
  constructor
  · intro hmem
    obtain ⟨x, hx, rfl⟩ := List.mem_map.mp hmem
    refine (forall_mem_closure
      (P := fun x => 0 ≤ x.dot ∧ Obtainable g sets algorithm items x.toItem)
      (fun y hy => ⟨hitems y hy, .given hy⟩) (fun y hy z hz => ?_) x hx).2
    obtain ⟨hdot, hobtainable⟩ := hy
    obtain ⟨p, hp, hnext, lookahead, hl, rfl⟩ := mem_calledFor.mp hz
    obtain ⟨before, hsplit⟩ := exists_eq_of_next? hdot hnext
    rw [hsplit] at hobtainable
    rw [hgrammar] at hp
    exact ⟨Int.le_refl 0, .called hp hobtainable ((mem_lookaheads_iff_gives hsystem).mp hl)⟩
  · intro h
    induction h with
    | given hx => exact mem_map_closure_of_mem (List.mem_map_of_mem hx)
    | @called lhs before behind own lookahead p hp _ hgives ih =>
        let caller : Item := ⟨lhs, before ++ p.lhs :: behind, before.length, own⟩
        have hdot : 0 ≤ caller.dot := Int.natCast_nonneg _
        have hnext : caller.next? = some p.lhs := by
          rw [Item.next?_of_nonneg hdot]
          simp [caller]
        have htrailer : caller.trailer = behind := by
          rw [Item.trailer_of_nonneg hdot]
          simp [caller, List.drop_append]
        have hcalled : NumberedItem.dotted p 0 lookahead ∈ system.calledFor caller := by
          refine mem_calledFor.mpr ⟨p, hgrammar ▸ hp, hnext, lookahead, ?_, rfl⟩
          rw [mem_lookaheads_iff_gives hsystem, htrailer]
          exact hgives
        exact mem_map_closure_of_calledFor ih hcalled

/-! ## Closing again -/

/-- Candidates that have all been seen give no new items. -/
theorem newItems_eq_nil {seen candidates : List NumberedItem}
    (h : ∀ y ∈ candidates, y.toItem ∈ seen.map toItem) : newItems seen candidates = [] := by
  have hnone : candidates.filter (fun y => !y.isIn seen) = [] := by
    rw [List.filter_eq_nil_iff]
    intro y hy
    simp [NumberedItem.isIn_iff.mpr (h y hy)]
  rw [newItems, hnone]
  rfl

/-- A work list whose items call for nothing else stays as it is. -/
theorem expand_eq_self :
    (bound : Nat) → (done todo : List NumberedItem) →
      (∀ x ∈ done ++ todo, ∀ y ∈ system.calledFor x.toItem,
        y.toItem ∈ (done ++ todo).map toItem) →
          system.expand bound done todo = done ++ todo
  | 0, _, _, _ => rfl
  | _ + 1, done, [], _ => (List.append_nil done).symm
  | bound + 1, done, item :: todo, h => by
      have hparts : (done ++ [item]) ++ todo = done ++ item :: todo := by
        rw [List.append_assoc, List.singleton_append]
      have hitem := h item (List.mem_append_right _ List.mem_cons_self)
      rw [expand, newItems_eq_nil hitem, List.append_nil, ← hparts]
      exact expand_eq_self bound _ _ (by rwa [hparts])

/-- Items that are closed, without repetitions and in order are their own closure. -/
theorem closure_eq_self (hnodup : (items.map toItem).Nodup)
    (hclosed : ∀ x ∈ items, ∀ y ∈ system.calledFor x.toItem, y.toItem ∈ items.map toItem)
    (horder : InOrder items) : system.closure items = items := by
  rw [closure, distinctBy_eq_self _ hnodup, expand_eq_self _ [] _ hclosed, List.nil_append,
    NumberedItem.sort_eq_self _ horder]

/-- The closure of a closure is that closure, item by item. -/
theorem closure_closure (system : ItemSystem) (items : List NumberedItem) :
    system.closure (system.closure items) = system.closure items :=
  closure_eq_self (nodup_closure system items)
    (fun _ hx _ hy => mem_map_closure_of_calledFor (List.mem_map_of_mem hx) hy)
    (inOrder_closure system items)

/-! ## Closures in canonical form -/

/-- The list has the items that are obtainable from the given ones, no item twice, and is in
order. -/
structure IsClosure (g : Grammar) (sets : FirstFollow) (algorithm : Algorithm)
    (items closed : List NumberedItem) : Prop where
  /-- The obtainable items are there, and no others. -/
  mem_iff : ∀ item, item ∈ closed.map toItem ↔ Obtainable g sets algorithm items item
  /-- No item is there twice. -/
  nodup : (closed.map toItem).Nodup
  /-- The items are sorted by number, dot and lookahead. -/
  inOrder : InOrder closed

/-- Items whose dots are counted from the front are closed. -/
theorem close_eq_ok (hitems : ∀ x ∈ items, 0 ≤ x.dot) :
    system.close items = .ok (system.closure items) := by
  refine if_pos (List.all_eq_true.mpr fun x hx => decide_eq_true ?_)
  have hdot := hitems x hx
  omega

/-- Items whose dots are counted from the front can be closed, for every algorithm with items and
whatever the sets are: the result is the least closed set of items in its one form, closing it again
gives the same list, and two lists together have the union of their closures. -/
theorem exists_isClosure (g : Grammar) (sets : FirstFollow)
    (halgorithm : algorithm ∈ Algorithm.shiftReduce) :
    ∃ system, ofAlgorithm g sets algorithm = .ok system ∧
      ∀ items : List NumberedItem, (∀ x ∈ items, 0 ≤ x.dot) →
        ∃ closed, system.close items = .ok closed ∧
          IsClosure g sets algorithm items closed ∧
          system.close closed = .ok closed ∧
          ∀ others : List NumberedItem, (∀ x ∈ others, 0 ≤ x.dot) →
            ∃ closedOthers together, system.close others = .ok closedOthers ∧
              system.close (items ++ others) = .ok together ∧
              itemSet together = itemSet closed ∪ itemSet closedOthers := by
  obtain ⟨system, hsystem⟩ : ∃ system, ofAlgorithm g sets algorithm = .ok system := by
    cases algorithm with
    | ll1 => simp [Algorithm.shiftReduce] at halgorithm
    | lr0 | slr1 | lr1 => exact ⟨_, rfl⟩
  refine ⟨system, hsystem, fun items hitems => ⟨system.closure items, close_eq_ok hitems,
    ⟨fun item => mem_map_closure_iff hsystem hitems, nodup_closure system items,
      inOrder_closure system items⟩, ?_, fun others hothers => ?_⟩⟩
  · rw [close_eq_ok (nonneg_of_mem_closure hitems), closure_closure]
  · have htogether : ∀ x ∈ items ++ others, 0 ≤ x.dot :=
      List.forall_mem_append.mpr ⟨hitems, hothers⟩
    refine ⟨_, _, close_eq_ok hothers, close_eq_ok htogether, ?_⟩
    ext item
    simp only [itemSet, Finset.mem_union, List.mem_toFinset]
    rw [mem_map_closure_iff hsystem htogether, mem_map_closure_iff hsystem hitems,
      mem_map_closure_iff hsystem hothers, obtainable_append_iff]

/-- An item that belongs to no production calls for the productions of nested brackets, once with what
these may begin with and once with its own lookahead. -/
theorem exists_isClosure_nested :
    ∃ system closed, ofAlgorithm .nested (FirstFollow.compute .nested) .lr1 = .ok system ∧
      system.close [⟨⟨"X", ["S", "S"], 0, some "$"⟩, 7⟩] = .ok closed ∧
      IsClosure .nested (FirstFollow.compute .nested) .lr1 [⟨⟨"X", ["S", "S"], 0, some "$"⟩, 7⟩]
        closed ∧
      system.close closed = .ok closed ∧
      closed.map (fun x => x.text) =
        ["[S -> . a S b, $]", "[S -> . a S b, a]", "[S -> ., $]", "[S -> ., a]",
          "[X -> . S S, $]"] := by
  obtain ⟨system, hsystem, hclosures⟩ := exists_isClosure .nested (FirstFollow.compute .nested)
    (show Algorithm.lr1 ∈ Algorithm.shiftReduce by decide)
  obtain ⟨closed, hclose, hclosed, hagain, -⟩ :=
    hclosures [⟨⟨"X", ["S", "S"], 0, some "$"⟩, 7⟩] (by decide)
  have htexts : (ofAlgorithm .nested (FirstFollow.compute .nested) .lr1).toOption.bind
      (fun system => (system.close [⟨⟨"X", ["S", "S"], 0, some "$"⟩, 7⟩]).toOption.map fun closed =>
        closed.map fun x => x.text) =
      some ["[S -> . a S b, $]", "[S -> . a S b, a]", "[S -> ., $]", "[S -> ., a]",
        "[X -> . S S, $]"] := by decide +kernel
  rw [hsystem] at htexts
  simp only [Except.toOption, Option.bind_some] at htexts
  rw [hclose] at htexts
  exact ⟨system, closed, hsystem, hclose, hclosed, hagain, Option.some.inj htexts⟩

end ItemSystem

end TableParsing
