import TableParsing.Proofs.Item.Least
import TableParsing.Proofs.Table.ShiftReduce

/-!
# The priority of actions

The alternatives of a cell stand in the order of their ranks (`Action.rank`): a shift or goto, then
the acceptance, then the reductions in the order of their productions. The rank of what an item asks
for is the number of the item (`ItemEntry.rank_eq`). So the entries of a state whose items are in
order are made in the order of their ranks, and merging them keeps the order
(`pairwise_alternatives_addAll`).
-/

namespace TableParsing

/-! ## Ranks -/

namespace Action

/-- The rank of an action: a shift or a goto comes first, and then what items ask for, by the number
of the production. That of the added start symbol has the number `-1`. -/
def rank : Action → WithBot Int
  | .shift _ | .goto _ | .conflict .. => ⊥
  | .accept => (-1 : Int)
  | .reduce p | .predict p => p.index

/-- Shifts come first. -/
theorem rank_of_isShift {a : Action} (h : a.isShift = true) : a.rank = ⊥ := by
  cases a with
  | shift => rfl
  | _ => cases h

/-- Actions that are in order stay so when the shifts are moved to the front. -/
theorem pairwise_shiftsFirst {actions : List Action}
    (h : actions.Pairwise fun a b => a.rank ≤ b.rank) :
    (shiftsFirst actions).Pairwise fun a b => a.rank ≤ b.rank := by
  refine List.pairwise_append.mpr ⟨h.filter _, h.filter _, fun a ha b _ => ?_⟩
  rw [rank_of_isShift (List.mem_filter.mp ha).2]
  exact bot_le

end Action

namespace Table

open NumberedItem ItemSystem

variable {g : Grammar} {algorithm : Algorithm}

/-- The rank of what an item asks for is the number of the item. -/
theorem ItemEntry.rank_eq {x : NumberedItem} {symbol : Symbol} {a : Action}
    (h : ItemEntry g algorithm x symbol a) : a.rank = x.index := by
  cases h with
  | accept hx | reduce _ hx =>
      rw [hx]
      rfl

/-- The entry of a transition comes first. -/
theorem rank_transitionEntry (g : Grammar) (symbol : Symbol) (target : Int) :
    (transitionEntry g symbol target).2.rank = ⊥ := by
  unfold transitionEntry
  split <;> rfl

/-! ## Entries in order -/

/-- The entries of items that are in order are in order. -/
theorem pairwise_allItemEntries {hasLookahead : Bool} :
    (items : List NumberedItem) → (∀ x ∈ items, IsItem (computed g hasLookahead) x) →
      (items.Pairwise fun x y => x.index ≤ y.index) → {entries : List (Symbol × Action)} →
        allItemEntries g (FirstFollow.compute g) algorithm g.augmentedProduction items =
          .ok entries → entries.Pairwise fun e f => e.2.rank ≤ f.2.rank
  | [], _, _, _, h => by
      cases h
      exact List.Pairwise.nil
  | x :: items, hitems, horder, entries, h => by
      obtain ⟨hx, hitems⟩ := List.forall_mem_cons.mp hitems
      obtain ⟨hle, horder⟩ := List.pairwise_cons.mp horder
      obtain ⟨own, hown, hmem⟩ := exists_itemEntries algorithm hx
      obtain ⟨others, hothers, hmem'⟩ := exists_allItemEntries algorithm items hitems
      rw [allItemEntries, hown, hothers] at h
      cases h
      have hrank : ∀ e ∈ own, e.2.rank = x.index := fun e he => ((hmem _ _).mp he).rank_eq
      refine List.pairwise_append.mpr
        ⟨List.pairwise_of_forall_mem_list fun e he f hf => ?_,
          pairwise_allItemEntries items hitems horder hothers, fun e he f hf => ?_⟩
      · rw [hrank e he, hrank f hf]
      · obtain ⟨y, hy, hentry⟩ := (hmem' _ _).mp hf
        rw [hrank e he, hentry.rank_eq]
        exact WithBot.coe_le_coe.mpr (hle y hy)

/-- The entries of a state whose items are in order are in order. -/
theorem pairwise_entriesOf {hasLookahead : Bool} {s : State}
    (hitems : ∀ x ∈ s.items, IsItem (computed g hasLookahead) x)
    (horder : s.items.Pairwise fun x y => x.index ≤ y.index) {entries : List (Symbol × Action)}
    (h : entriesOf g (FirstFollow.compute g) algorithm g.augmentedProduction s = .ok entries) :
    entries.Pairwise fun e f => e.2.rank ≤ f.2.rank := by
  obtain ⟨reductions, hreductions, -⟩ := exists_allItemEntries algorithm s.items hitems
  rw [entriesOf, hreductions] at h
  cases h
  have hrank : ∀ e ∈ s.transitions.entries.map fun step => transitionEntry g step.1 step.2,
      e.2.rank = ⊥ := by
    intro e he
    obtain ⟨step, -, rfl⟩ := List.mem_map.mp he
    exact rank_transitionEntry g _ _
  refine List.pairwise_append.mpr
    ⟨List.pairwise_of_forall_mem_list fun e he f _ => ?_,
      pairwise_allItemEntries s.items hitems horder hreductions, fun e he f _ => ?_⟩
  · rw [hrank e he]
    exact bot_le
  · rw [hrank e he]
    exact bot_le

/-- The entries of each row are in order, if the states have different numbers and their items are in
order. -/
theorem pairwise_allEntries {hasLookahead : Bool} :
    (states : List State) → (∀ s ∈ states, ∀ x ∈ s.items, IsItem (computed g hasLookahead) x) →
      (∀ s ∈ states, s.items.Pairwise fun x y => x.index ≤ y.index) →
        (states.Pairwise fun s t => s.id ≠ t.id) → {entries : List (Row × Symbol × Action)} →
          allEntries g (FirstFollow.compute g) algorithm g.augmentedProduction states =
            .ok entries →
            entries.Pairwise fun e f => e.1 = f.1 → e.2.2.rank ≤ f.2.2.rank
  | [], _, _, _, _, h => by
      cases h
      exact List.Pairwise.nil
  | s :: states, hitems, horder, hids, entries, h => by
      obtain ⟨hs, hitems⟩ := List.forall_mem_cons.mp hitems
      obtain ⟨hsorder, horder⟩ := List.forall_mem_cons.mp horder
      obtain ⟨hid, hids⟩ := List.pairwise_cons.mp hids
      obtain ⟨own, hown, -⟩ := exists_entriesOf algorithm hs
      obtain ⟨others, hothers, hmem'⟩ := exists_allEntries algorithm states hitems
      rw [allEntries, hown, hothers] at h
      cases h
      refine List.pairwise_append.mpr
        ⟨?_, pairwise_allEntries states hitems horder hids hothers, fun e he f hf hrow => ?_⟩
      · refine List.pairwise_map.mpr ((pairwise_entriesOf hs hsorder hown).imp ?_)
        intro _ _ hle _
        exact hle
      · -- The rows of other states are other rows.
        obtain ⟨entry, -, rfl⟩ := List.mem_map.mp he
        obtain ⟨t, ht, hrow', -⟩ := (hmem' _ _ _).mp hf
        exact absurd (Row.state.inj (hrow.trans hrow')) (hid t ht)

/-! ## Alternatives in order -/

/-- If the entries of each row are in order, then so are the alternatives of each cell. -/
theorem pairwise_alternatives_addAll {table : Table} {row : Row} {symbol : Symbol}
    (hempty : table.get? row symbol = none) {entries : List (Row × Symbol × Action)}
    (hentries : ∀ entry ∈ entries, entry.2.2.isConflict = false)
    (horder : entries.Pairwise fun e f => e.1 = f.1 → e.2.2.rank ≤ f.2.2.rank) :
    ((addAll table entries).alternatives row symbol).Pairwise fun a b => a.rank ≤ b.rank := by
  have hactions : (actionsAt entries row symbol).Pairwise fun a b => a.rank ≤ b.rank := by
    refine List.pairwise_filterMap.mpr (horder.imp ?_)
    intro e f hle a ha b hb
    rw [Option.ite_none_right_eq_some] at ha hb
    obtain ⟨⟨hrow, -⟩, ha⟩ := ha
    obtain ⟨⟨hrow', -⟩, hb⟩ := hb
    rw [← Option.some.inj ha, ← Option.some.inj hb]
    exact hle (hrow.trans hrow'.symm)
  rw [alternatives_addAll hempty hentries]
  exact Action.pairwise_shiftsFirst (hactions.sublist (distinctBy_sublist _ _))

end Table

end TableParsing
