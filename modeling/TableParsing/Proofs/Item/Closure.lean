import TableParsing.Proofs.Distinct
import TableParsing.Proofs.FirstFollow.Lookahead
import TableParsing.Proofs.Item.Places
import TableParsing.Item.Closure

/-!
# Closures

The closure of a list of items has them and all that its members call for
(`mem_map_closure_of_mem`, `mem_map_closure_of_calledFor`), no item twice (`nodup_closure`), and
nothing that does not come from the given items by calls (`forall_mem_closure`).

The work list keeps `Worked`: no item occurs twice, and what has been worked through calls for
nothing else. It runs empty within the bound because its items are among the seeds and the first
items of the productions, with lookaheads out of the pool (`candidates`).
-/

namespace TableParsing.ItemSystem

open NumberedItem (toItem)

variable {system : ItemSystem} {items : List NumberedItem}

/-! ## What an item calls for -/

/-- The lookaheads of called items: what the symbols behind the non-terminal begin with and, if
they derive the empty word, the lookahead of the item. -/
theorem mem_lookaheads (h : system.hasLookahead = true) {item : Item} {lookahead : Option Symbol} :
    lookahead ∈ system.lookaheads item ↔
      ∃ s, lookahead = some s ∧
        ((s ∈ FirstFollow.firstOfSequence system.first item.trailer ∧ s ≠ epsilon) ∨
          (epsilon ∈ FirstFollow.firstOfSequence system.first item.trailer ∧
            item.lookahead = some s)) := by
  rw [lookaheads, if_pos h, List.mem_map]
  apply exists_congr
  intro s
  rw [and_comm, eq_comm, ← SymbolSet.mem_def]
  apply and_congr_right
  intro _
  cases item.lookahead with
  | none => simp
  | some symbol =>
      simp only [Option.some.injEq]
      split
      · next hε => simp [SymbolSet.mem_insert, hε, or_comm, eq_comm]
      · next hε => simp [hε]

/-- The lookaheads of called items are foretold by the symbols behind the non-terminal, where the
lookahead of the item comes after them. -/
theorem mem_lookaheads_dotted (h : system.hasLookahead = true) {r : Rule} {place : Nat}
    {following : Symbol} {lookahead : Option Symbol} :
    lookahead ∈ system.lookaheads (.dotted r place (some following)) ↔
      ∃ s, lookahead = some s ∧
        FirstFollow.Foretells system.first (r.body.drop (place + 1)) s following := by
  rw [mem_lookaheads h, Item.trailer_dotted]
  simp only [FirstFollow.Foretells, Item.dotted, Option.some.injEq, eq_comm]

/-- Without lookaheads the called items have none. -/
theorem lookaheads_of_not (h : system.hasLookahead = false) (item : Item) :
    system.lookaheads item = [none] := by
  rw [lookaheads, h]
  rfl

/-- An item calls for the first items of the productions of the non-terminal after its dot. -/
theorem mem_calledFor {item : Item} {called : NumberedItem} :
    called ∈ system.calledFor item ↔
      ∃ p ∈ system.grammar.productions, item.next? = some p.lhs ∧
        ∃ lookahead ∈ system.lookaheads item, called = .dotted p 0 lookahead := by
  unfold calledFor
  split
  · next hnext => simp [hnext]
  · next symbol hnext =>
      simp only [hnext, List.mem_flatMap, List.mem_map, Grammar.productionsOf, List.mem_filter,
        decide_eq_true_eq, Option.some.injEq, NumberedItem.start_eq_dotted]
      constructor
      · rintro ⟨lookahead, hl, p, ⟨hp, hlhs⟩, rfl⟩
        exact ⟨p, hp, hlhs.symm, lookahead, hl, rfl⟩
      · rintro ⟨p, hp, hlhs, lookahead, hl, rfl⟩
        exact ⟨lookahead, hl, p, ⟨hp, hlhs.symm⟩, rfl⟩

/-- New items are candidates that have not been seen. -/
theorem mem_map_newItems {seen new : List NumberedItem} {item : Item} :
    item ∈ (newItems seen new).map toItem ↔ item ∈ new.map toItem ∧ item ∉ seen.map toItem := by
  rw [newItems, mem_map_distinctBy]
  simp only [List.mem_map, List.mem_filter, Bool.not_eq_true', ← Bool.not_eq_true,
    NumberedItem.isIn_iff]
  constructor
  · rintro ⟨x, ⟨hx, hseen⟩, rfl⟩
    exact ⟨⟨x, hx, rfl⟩, hseen⟩
  · rintro ⟨⟨x, hx, rfl⟩, hseen⟩
    exact ⟨x, ⟨hx, hseen⟩, rfl⟩

/-- New items are some of the candidates. -/
theorem mem_of_mem_newItems {seen new : List NumberedItem} {x : NumberedItem}
    (h : x ∈ newItems seen new) : x ∈ new :=
  (List.mem_filter.mp ((distinctBy_sublist _ _).mem h)).1

/-! ## The work list -/

/-- The items that have been worked through and those that have not: all are different, and the
former call for nothing else. -/
structure Worked (system : ItemSystem) (done todo : List NumberedItem) : Prop where
  /-- No item is there twice. -/
  nodup : ((done ++ todo).map toItem).Nodup
  /-- What the items that have been worked through call for is there. -/
  closed : ∀ x ∈ done, ∀ y ∈ system.calledFor x.toItem, y.toItem ∈ (done ++ todo).map toItem

/-- Working through one item. -/
theorem Worked.step {item : NumberedItem} {done todo : List NumberedItem}
    (h : Worked system done (item :: todo)) :
    Worked system (done ++ [item])
      (todo ++ newItems (done ++ item :: todo) (system.calledFor item.toItem)) := by
  have hparts : (done ++ [item]) ++
      (todo ++ newItems (done ++ item :: todo) (system.calledFor item.toItem)) =
        (done ++ item :: todo) ++
          newItems (done ++ item :: todo) (system.calledFor item.toItem) := by
    simp only [List.append_assoc, List.cons_append, List.nil_append]
  constructor
  · rw [hparts, List.map_append, List.nodup_append']
    refine ⟨h.nodup, nodup_map_distinctBy _ _, fun x hold hnew => ?_⟩
    exact (mem_map_newItems.mp hnew).2 hold
  · intro x hx y hy
    rw [hparts, List.map_append, List.mem_append]
    rcases List.mem_append.mp hx with hx | hx
    · exact Or.inl (h.closed x hx y hy)
    · rw [List.mem_singleton.mp hx] at hy
      by_cases hold : y.toItem ∈ (done ++ item :: todo).map toItem
      · exact Or.inl hold
      · exact Or.inr (mem_map_newItems.mpr ⟨List.mem_map_of_mem hy, hold⟩)

/-- The work list loses no item. -/
theorem mem_expand_of_mem {x : NumberedItem} :
    (bound : Nat) → (done todo : List NumberedItem) → x ∈ done ++ todo →
      x ∈ system.expand bound done todo
  | 0, _, _, h => h
  | _ + 1, done, [], h => by rwa [List.append_nil] at h
  | bound + 1, done, item :: todo, h => by
      apply mem_expand_of_mem bound _ _
      simp only [List.mem_append, List.mem_cons] at h ⊢
      rcases h with h | h | h <;> simp [h]

/-- What holds of the items, and of all new items among those that they call for, holds of the whole
work list. -/
theorem forall_mem_expand {P : NumberedItem → Prop}
    (hnew : ∀ x, P x → ∀ seen, ∀ y ∈ newItems seen (system.calledFor x.toItem), P y) :
    (bound : Nat) → (done todo : List NumberedItem) → (∀ x ∈ done ++ todo, P x) →
      ∀ x ∈ system.expand bound done todo, P x
  | 0, _, _, h => h
  | _ + 1, done, [], h => by rwa [List.append_nil] at h
  | bound + 1, done, item :: todo, h => by
      apply forall_mem_expand hnew bound _ _
      intro x hx
      simp only [List.mem_append, List.mem_singleton] at hx
      rcases hx with (hx | rfl) | hx | hx
      · exact h x (List.mem_append_left _ hx)
      · exact h x (List.mem_append_right _ List.mem_cons_self)
      · exact h x (List.mem_append_right _ (List.mem_cons_of_mem _ hx))
      · exact hnew item (h item (List.mem_append_right _ List.mem_cons_self)) _ x hx

/-- If all items that can occur are in a list no longer than the bound, the work list runs
empty. -/
theorem Worked.expand {among : List Item}
    (hcalled : ∀ item ∈ among, ∀ y ∈ system.calledFor item, y.toItem ∈ among) :
    (bound : Nat) → (done todo : List NumberedItem) → Worked system done todo →
      (∀ x ∈ done ++ todo, x.toItem ∈ among) → among.length ≤ done.length + bound →
        Worked system (system.expand bound done todo) []
  | 0, done, todo, h, hamong, hbound => by
      have hsub : (done ++ todo).map toItem ⊆ among := by
        intro item hitem
        obtain ⟨x, hx, rfl⟩ := List.mem_map.mp hitem
        exact hamong x hx
      have hle := (List.subperm_of_subset h.nodup hsub).length_le
      rw [List.length_map, List.length_append] at hle
      have htodo : todo = [] := List.length_eq_zero_iff.mp (by omega)
      subst htodo
      rw [ItemSystem.expand, List.append_nil]
      exact h
  | _ + 1, done, [], h, _, _ => h
  | bound + 1, done, item :: todo, h, hamong, hbound => by
      refine Worked.expand hcalled bound _ _ h.step (fun x hx => ?_) ?_
      · simp only [List.mem_append, List.mem_singleton] at hx
        have hitem := hamong item (List.mem_append_right _ List.mem_cons_self)
        rcases hx with (hx | rfl) | hx | hx
        · exact hamong x (List.mem_append_left _ hx)
        · exact hitem
        · exact hamong x (List.mem_append_right _ (List.mem_cons_of_mem _ hx))
        · exact hcalled item.toItem hitem x (mem_of_mem_newItems hx)
      · rw [List.length_append, List.length_singleton]
        omega

/-! ## Items that can occur -/

/-- The seeds, and the first items of all productions with lookaheads out of the pool or none. -/
def candidates (system : ItemSystem) (items : List NumberedItem) : List Item :=
  (distinctBy toItem items).map toItem ++
    system.grammar.productions.flatMap fun p =>
      (none :: (system.lookaheadPool items).map some).map (Item.dotted p.toRule 0)

/-- There are no more items that can occur than the bound says. -/
theorem length_candidates_le (system : ItemSystem) (items : List NumberedItem) :
    (system.candidates items).length ≤ system.closureBound items := by
  have hseeds := (distinctBy_sublist toItem items).length_le
  rw [candidates, closureBound, List.length_append, List.length_map, List.length_flatMap]
  simp only [List.length_map, List.length_cons, List.map_const', List.sum_replicate, smul_eq_mul,
    Grammar.productions, List.length_mapIdx]
  omega

/-- A first item of a production can occur with a lookahead out of the pool or none. -/
theorem mem_candidates_of_mem_pool {p : Production} (hp : p ∈ system.grammar.productions)
    {lookahead : Option Symbol} (hl : ∀ s ∈ lookahead, s ∈ system.lookaheadPool items) :
    Item.dotted p.toRule 0 lookahead ∈ system.candidates items := by
  refine List.mem_append_right _ (List.mem_flatMap.mpr ⟨p, hp, List.mem_map_of_mem ?_⟩)
  cases lookahead with
  | none => exact List.mem_cons_self
  | some s => exact List.mem_cons_of_mem _ (List.mem_map_of_mem (hl s rfl))

/-- The symbols and the lookaheads of the items that can occur are in the pool. -/
theorem mem_pool_of_mem_candidates {item : Item} (h : item ∈ system.candidates items) :
    (∀ s ∈ item.rhs, s ∈ system.lookaheadPool items) ∧
      ∀ s ∈ item.lookahead, s ∈ system.lookaheadPool items := by
  unfold lookaheadPool
  simp only [List.mem_append, List.mem_flatMap, List.mem_filterMap]
  rcases List.mem_append.mp h with h | h
  · obtain ⟨x, hx, rfl⟩ := List.mem_map.mp h
    have hx := (distinctBy_sublist _ _).mem hx
    exact ⟨fun s hs => Or.inl (Or.inr ⟨x, hx, hs⟩), fun s hs => Or.inr ⟨x, hx, hs⟩⟩
  · obtain ⟨p, hp, hitem⟩ := List.mem_flatMap.mp h
    obtain ⟨lookahead, hl, rfl⟩ := List.mem_map.mp hitem
    refine ⟨fun s hs => ?_, fun s hs => ?_⟩
    · exact Or.inl (Or.inl (Or.inr ⟨p.toRule, Grammar.toRule_mem_rules hp, hs⟩))
    · obtain rfl : lookahead = some s := hs
      rcases List.mem_cons.mp hl with hl | hl
      · cases hl
      · obtain ⟨s', hs', hsome⟩ := List.mem_map.mp hl
        cases hsome
        rw [lookaheadPool] at hs'
        simpa only [List.mem_append, List.mem_flatMap, List.mem_filterMap] using hs'

/-- The symbols that a sequence out of the pool begins with are in the pool. -/
theorem mem_pool_of_mem_firstOfSequence {symbols : List Symbol}
    (h : ∀ s ∈ symbols, s ∈ system.lookaheadPool items) {x : Symbol}
    (hx : x ∈ FirstFollow.firstOfSequence system.first symbols) (hne : x ≠ epsilon) :
    x ∈ system.lookaheadPool items := by
  rcases FirstFollow.mem_firstOfSequence symbols hx with rfl | ⟨s, hs, hx⟩
  · exact absurd rfl hne
  · cases hget : system.first.get? s with
    | none =>
        rw [FirstFollow.firstOf, hget, Option.getD_none, SymbolSet.mem_singleton] at hx
        exact hx ▸ h s hs
    | some value =>
        rw [FirstFollow.firstOf, hget, Option.getD_some] at hx
        have hvalue : value ∈ system.first.values :=
          List.mem_map.mpr ⟨(s, value), OrderedMap.get?_eq_some_iff.mp hget, rfl⟩
        refine List.mem_append_left _ (List.mem_append_left _ (List.mem_append_left _ ?_))
        exact List.mem_flatMap.mpr ⟨value, hvalue, hx⟩

/-- What an item that can occur calls for can occur. -/
theorem mem_candidates_of_calledFor {item : Item} (h : item ∈ system.candidates items)
    {called : NumberedItem} (hcalled : called ∈ system.calledFor item) :
    called.toItem ∈ system.candidates items := by
  obtain ⟨p, hp, -, lookahead, hl, rfl⟩ := mem_calledFor.mp hcalled
  obtain ⟨hrhs, hown⟩ := mem_pool_of_mem_candidates h
  apply mem_candidates_of_mem_pool hp
  intro s hs
  cases hhas : system.hasLookahead with
  | false =>
      rw [lookaheads_of_not hhas, List.mem_singleton] at hl
      rw [hl] at hs
      cases hs
  | true =>
      obtain ⟨s', rfl, hs'⟩ := (mem_lookaheads hhas).mp hl
      cases hs
      rcases hs' with ⟨hfirst, hne⟩ | ⟨-, hlookahead⟩
      · exact mem_pool_of_mem_firstOfSequence
          (fun t ht => hrhs t (List.mem_of_mem_drop ht)) hfirst hne
      · exact hown s hlookahead

/-! ## The closure -/

/-- The closure has what the work list has. -/
theorem closure_perm (system : ItemSystem) (items : List NumberedItem) :
    (system.closure items).Perm
      (system.expand (system.closureBound items) [] (distinctBy toItem items)) :=
  NumberedItem.sort_perm _

/-- The closure has no item twice and calls for nothing else. -/
theorem worked_closure (system : ItemSystem) (items : List NumberedItem) :
    Worked system (system.closure items) [] := by
  have hstart : Worked system [] (distinctBy toItem items) :=
    ⟨nodup_map_distinctBy _ _, fun x hx => absurd hx List.not_mem_nil⟩
  have hperm := closure_perm system items
  have hworked := Worked.expand (fun _ h _ hc => mem_candidates_of_calledFor h hc)
    (system.closureBound items) [] (distinctBy toItem items) hstart
    (fun x hx => List.mem_append_left _ (List.mem_map_of_mem hx))
    (by rw [List.length_nil, Nat.zero_add]; exact length_candidates_le system items)
  constructor
  · rw [List.append_nil]
    have hnodup := hworked.nodup
    rw [List.append_nil] at hnodup
    exact (hperm.map toItem).nodup_iff.mpr hnodup
  · intro x hx y hy
    rw [List.append_nil]
    have hclosed := hworked.closed x (hperm.mem_iff.mp hx) y hy
    rw [List.append_nil] at hclosed
    exact (hperm.map toItem).mem_iff.mpr hclosed

/-- The closure has no item twice. -/
theorem nodup_closure (system : ItemSystem) (items : List NumberedItem) :
    ((system.closure items).map toItem).Nodup := by
  have hnodup := (worked_closure system items).nodup
  rwa [List.append_nil] at hnodup

/-- The closure has the given items. -/
theorem mem_map_closure_of_mem {item : Item} (h : item ∈ items.map toItem) :
    item ∈ (system.closure items).map toItem := by
  rw [← mem_map_distinctBy, List.mem_map] at h
  obtain ⟨x, hx, rfl⟩ := h
  exact List.mem_map_of_mem ((closure_perm system items).mem_iff.mpr (mem_expand_of_mem _ [] _ hx))

/-- The closure has what its items call for. -/
theorem mem_map_closure_of_calledFor {item : Item}
    (h : item ∈ (system.closure items).map toItem) {called : NumberedItem}
    (hcalled : called ∈ system.calledFor item) :
    called.toItem ∈ (system.closure items).map toItem := by
  obtain ⟨x, hx, rfl⟩ := List.mem_map.mp h
  have hclosed := (worked_closure system items).closed x hx called hcalled
  rwa [List.append_nil] at hclosed

/-- What holds of the given items, and of all new items among those that items call for, holds of
the closure. -/
theorem forall_mem_closure_of_newItems {P : NumberedItem → Prop} (hitems : ∀ x ∈ items, P x)
    (hnew : ∀ x, P x → ∀ seen, ∀ y ∈ newItems seen (system.calledFor x.toItem), P y) :
    ∀ x ∈ system.closure items, P x := by
  intro x hx
  refine forall_mem_expand hnew _ [] (distinctBy toItem items) (fun y hy => ?_) x
    ((closure_perm system items).mem_iff.mp hx)
  exact hitems y ((distinctBy_sublist _ _).mem hy)

/-- What holds of the given items and of all that items call for holds of the closure. -/
theorem forall_mem_closure {P : NumberedItem → Prop} (hitems : ∀ x ∈ items, P x)
    (hcalled : ∀ x, P x → ∀ y ∈ system.calledFor x.toItem, P y) :
    ∀ x ∈ system.closure items, P x :=
  forall_mem_closure_of_newItems hitems fun x hx _ y hy => hcalled x hx y (mem_of_mem_newItems hy)

/-- An item of the closure is one of the given items, or an item of the closure calls for it. -/
theorem mem_closure_cases :
    ∀ x ∈ system.closure items,
      x ∈ items ∨ ∃ caller ∈ (system.closure items).map toItem, x ∈ system.calledFor caller := by
  intro x hx
  refine (forall_mem_closure (P := fun x => x.toItem ∈ (system.closure items).map toItem ∧
    (x ∈ items ∨ ∃ caller ∈ (system.closure items).map toItem, x ∈ system.calledFor caller))
    (fun y hy => ?_) (fun y hy z hz => ?_) x hx).2
  · exact ⟨mem_map_closure_of_mem (List.mem_map_of_mem hy), Or.inl hy⟩
  · exact ⟨mem_map_closure_of_calledFor hy.1 hz, Or.inr ⟨y.toItem, hy.1, hz⟩⟩

/-! ## The goto -/

/-- The goto has the items that expect the symbol, advanced. -/
theorem mem_map_goto_of_mem {item : Item} (h : item ∈ items.map toItem) {symbol : Symbol}
    (hnext : item.next? = some symbol) :
    item.advance ∈ (system.goto items symbol).map toItem := by
  obtain ⟨x, hx, rfl⟩ := List.mem_map.mp h
  refine mem_map_closure_of_mem (List.mem_map.mpr ⟨x.advance, List.mem_map_of_mem ?_, rfl⟩)
  exact List.mem_filter.mpr ⟨hx, decide_eq_true hnext⟩

/-- An item of a goto has advanced over the symbol, or an item of the goto calls for it. -/
theorem mem_goto_cases {symbol : Symbol} :
    ∀ x ∈ system.goto items symbol,
      (∃ y ∈ items, y.next? = some symbol ∧ x = y.advance) ∨
        ∃ caller ∈ (system.goto items symbol).map toItem, x ∈ system.calledFor caller := by
  intro x hx
  apply (mem_closure_cases x hx).imp_left
  intro hx
  obtain ⟨y, hy, rfl⟩ := List.mem_map.mp hx
  obtain ⟨hmem, hnext⟩ := List.mem_filter.mp hy
  exact ⟨y, hmem, of_decide_eq_true hnext, rfl⟩

end TableParsing.ItemSystem
