import TableParsing.Proofs.Collection.Built
import TableParsing.Proofs.Collection.Numbers

/-!
# What makes a cell a conflict

A cell holds different actions iff its state has different reasons for them: a complete item that
asks for an action under the symbol (`Item.Acts`), and besides it a transition on the symbol or
another such item (`Meets`, `conflictAt_iff_meets`). So whether a cell is a conflict can be read off
the set of items of the state and the symbols that lead on from it. The numbers of the states and of
the productions do not matter for it, though they are what the actions in the cell hold.

An action is the reason's own: an item asks for one action under a symbol, and no two items of a
state ask for the same one (`ItemEntry.item_unique`).
-/

namespace TableParsing

open ItemSystem NumberedItem

variable {g : Grammar} {algorithm : Algorithm} {symbol : Symbol}

/-! ## Items that ask for an action -/

namespace Table

/-- The complete item asks for an action under a symbol. -/
def Acts (g : Grammar) (algorithm : Algorithm) (item : Item) (symbol : Symbol) : Prop :=
  item.isComplete = true ∧
    ((item.lhs = g.augmentedStart ∧ symbol = endMarker ∧
        (algorithm ≠ .lr1 ∨ item.lookahead = some endMarker)) ∨
      (g.isNonTerminal item.lhs = true ∧ MayReduce g algorithm item.lhs item.lookahead symbol))

/-- An item acts iff there is an action that it asks for. -/
theorem exists_itemEntry_iff {hasLookahead : Bool} {x : NumberedItem}
    (hx : IsItem (computed g hasLookahead) x) :
    (∃ a, ItemEntry g algorithm x symbol a) ↔ Acts g algorithm x.toItem symbol := by
  constructor
  · rintro ⟨a, hentry⟩
    refine ⟨hentry.isComplete, ?_⟩
    cases hentry with
    | accept hx hsymbol hend =>
        subst hx
        exact Or.inl ⟨rfl, hsymbol, hend⟩
    | reduce hp hx hmay =>
        subst hx
        exact Or.inr ⟨Grammar.isNonTerminal_lhs (Grammar.toRule_mem_rules hp), hmay⟩
  · obtain ⟨p, hp, place, hplace, lookahead, -, rfl⟩ := hx
    rintro ⟨hcomplete, hreason⟩
    obtain rfl := Nat.le_antisymm hplace (Item.isComplete_dotted.mp hcomplete)
    rcases hreason with ⟨hlhs, hsymbol, hend⟩ | ⟨hn, hmay⟩
    · obtain rfl := Grammar.eq_augmentedProduction hp hlhs
      exact ⟨.accept, .accept rfl hsymbol hend⟩
    · have hne := Grammar.ne_of_isNonTerminal hn g.not_isNonTerminal_augmentedStart
      exact ⟨.reduce p, .reduce (Grammar.mem_productions_of_lhs_ne hp hne) rfl hmay⟩

/-- The lookahead of a complete item that acts is the symbol, or there are no lookaheads. -/
theorem ItemEntry.lookahead_eq {x : NumberedItem} {a : Action}
    (hx : IsItem (computed g (algorithm = .lr1)) x) (h : ItemEntry g algorithm x symbol a) :
    x.lookahead = if algorithm = .lr1 then some symbol else none := by
  by_cases hlr1 : algorithm = .lr1
  · subst hlr1
    rw [if_pos rfl]
    exact h.awaits.2
  · obtain ⟨p, -, place, -, lookahead, hl, rfl⟩ := hx
    rw [if_neg hlr1]
    show lookahead = none
    simpa [allLookaheads, hlr1] using hl

/-- Items that ask for the same action are the same. -/
theorem ItemEntry.item_unique {x y : NumberedItem} {a : Action}
    (hx : IsItem (computed g (algorithm = .lr1)) x)
    (hy : IsItem (computed g (algorithm = .lr1)) y)
    (hxa : ItemEntry g algorithm x symbol a) (hya : ItemEntry g algorithm y symbol a) : x = y := by
  have hlookahead := (hxa.lookahead_eq hx).trans (hya.lookahead_eq hy).symm
  cases hxa with
  | accept hx' =>
      cases hya with
      | accept hy' =>
          subst hx' hy'
          exact congrArg (dotted _ _) hlookahead
  | reduce _ hx' =>
      cases hya with
      | reduce _ hy' =>
          subst hx' hy'
          exact congrArg (dotted _ _) hlookahead

/-- What an item asks for is neither a shift nor a goto. -/
theorem ItemEntry.ne_shift_ne_goto {x : NumberedItem} {a : Action}
    (h : ItemEntry g algorithm x symbol a) (next : Int) : a ≠ .shift next ∧ a ≠ .goto next := by
  cases h with
  | accept | reduce => exact ⟨Action.noConfusion, Action.noConfusion⟩

/-- A transition asks for an action that no item asks for. -/
theorem exists_rowEntry_of_get? {s : State} {next : Int}
    (hget : s.transitions.get? symbol = some next) :
    ∃ a, RowEntry g algorithm s symbol a ∧ ∀ x, ¬ ItemEntry g algorithm x symbol a := by
  cases hn : g.isNonTerminal symbol with
  | true => exact ⟨_, .goto hget hn, fun x hx => (hx.ne_shift_ne_goto next).2 rfl⟩
  | false => exact ⟨_, .shift hget hn, fun x hx => (hx.ne_shift_ne_goto next).1 rfl⟩

/-- What a state asks for has a transition or an item for its reason. -/
theorem RowEntry.reason {s : State} {a : Action} (h : RowEntry g algorithm s symbol a) :
    (∃ next, s.transitions.get? symbol = some next ∧
        a = if g.isNonTerminal symbol then .goto next else .shift next) ∨
      ∃ x ∈ s.items, ItemEntry g algorithm x symbol a := by
  cases h with
  | shift hget hn => exact Or.inl ⟨_, hget, by rw [hn]; rfl⟩
  | goto hget hn => exact Or.inl ⟨_, hget, by rw [hn]; rfl⟩
  | item hx hentry => exact Or.inr ⟨_, hx, hentry⟩

end Table

/-! ## Two reasons -/

namespace Collection

open Table

/-- One of some items acts under a symbol, and the symbol leads on or another item acts. -/
def Meets (g : Grammar) (algorithm : Algorithm) (items : Finset Item) (leadsOn : Prop)
    (symbol : Symbol) : Prop :=
  ∃ item ∈ items, Acts g algorithm item symbol ∧
    (leadsOn ∨ ∃ other ∈ items, other ≠ item ∧ Acts g algorithm other symbol)

variable {states : List State} (h : Linked (computed g (algorithm = .lr1)) states.length [] states)
include h

/-- The items of a state that act are those that ask for an action. -/
theorem Linked.exists_itemEntry_of_acts {s : State} (hs : s ∈ states) {item : Item}
    (hitem : item ∈ itemSet s.items) (hacts : Acts g algorithm item symbol) :
    ∃ x ∈ s.items, x.toItem = item ∧ ∃ a, ItemEntry g algorithm x symbol a := by
  obtain ⟨x, hx, rfl⟩ := List.mem_map.mp (List.mem_toFinset.mp hitem)
  exact ⟨x, hx, rfl, (exists_itemEntry_iff (h.isItem hs x hx)).mpr hacts⟩

/-- A state asks for two different actions iff two of its reasons meet. -/
theorem Linked.exists_ne_iff_meets {s : State} (hs : s ∈ states) :
    (∃ a b, a ≠ b ∧ RowEntry g algorithm s symbol a ∧ RowEntry g algorithm s symbol b) ↔
      Meets g algorithm (itemSet s.items) (∃ next, s.transitions.get? symbol = some next)
        symbol := by
  have hacts : ∀ {x a}, x ∈ s.items → ItemEntry g algorithm x symbol a →
      x.toItem ∈ itemSet s.items ∧ Acts g algorithm x.toItem symbol := fun {x a} hx hentry =>
    ⟨List.mem_toFinset.mpr (List.mem_map_of_mem hx),
      (exists_itemEntry_iff (h.isItem hs x hx)).mp ⟨a, hentry⟩⟩
  constructor
  · rintro ⟨a, b, hne, ha, hb⟩
    rcases ha.reason with ⟨next, hget, ha⟩ | ⟨x, hx, hxa⟩ <;>
      rcases hb.reason with ⟨next', hget', hb⟩ | ⟨y, hy, hyb⟩
    · -- There is one transition on the symbol.
      rw [hget] at hget'
      rw [ha, hb, Option.some.inj hget'] at hne
      exact absurd rfl hne
    · obtain ⟨hmem, hy⟩ := hacts hy hyb
      exact ⟨y.toItem, hmem, hy, Or.inl ⟨next, hget⟩⟩
    · obtain ⟨hmem, hx⟩ := hacts hx hxa
      exact ⟨x.toItem, hmem, hx, Or.inl ⟨next', hget'⟩⟩
    · obtain ⟨hmem, hactsx⟩ := hacts hx hxa
      obtain ⟨hmem', hactsy⟩ := hacts hy hyb
      refine ⟨x.toItem, hmem, hactsx, Or.inr ⟨y.toItem, hmem', fun heq => hne ?_, hactsy⟩⟩
      obtain rfl := List.inj_on_of_nodup_map (h.nodup_items hs) hy hx heq
      exact hxa.unique hyb
  · rintro ⟨item, hitem, hactsx, hother⟩
    obtain ⟨x, hx, rfl, a, hxa⟩ := h.exists_itemEntry_of_acts hs hitem hactsx
    rcases hother with ⟨next, hget⟩ | ⟨other, hmem, hne, hactsy⟩
    · obtain ⟨b, hb, hnone⟩ : ∃ b, RowEntry g algorithm s symbol b ∧
          ∀ x, ¬ ItemEntry g algorithm x symbol b := exists_rowEntry_of_get? hget
      refine ⟨a, b, ?_, .item hx hxa, hb⟩
      rintro rfl
      exact hnone x hxa
    · obtain ⟨y, hy, rfl, b, hyb⟩ := h.exists_itemEntry_of_acts hs hmem hactsy
      refine ⟨a, b, ?_, .item hx hxa, .item hy hyb⟩
      rintro rfl
      exact hne (congrArg toItem (ItemEntry.item_unique (h.isItem hs y hy) (h.isItem hs x hx) hyb hxa))

omit h in
/-- A cell of a collection is a conflict iff two reasons of the state of its row meet. -/
theorem conflictAt_iff_meets (halgorithm : algorithm ∈ Algorithm.shiftReduce)
    {collection : Collection}
    (hbuild : build g (FirstFollow.compute g) algorithm = .ok collection) {s : State}
    (hs : s ∈ collection.states) :
    collection.table.ConflictAt (.state s.id) symbol ↔
      Meets g algorithm (itemSet s.items) (∃ next, s.transitions.get? symbol = some next)
        symbol := by
  obtain ⟨collection', hbuild', hbuilt⟩ := exists_built g halgorithm
  obtain rfl : collection' = collection := Except.ok.inj (hbuild'.symm.trans hbuild)
  rw [conflictAt_iff halgorithm hbuild, ← hbuilt.linked.exists_ne_iff_meets hs]
  constructor
  · rintro ⟨t, ht, hid, hactions⟩
    rwa [hbuilt.linked.eq_of_id_eq ht hs (Row.state.inj hid).symm] at hactions
  · intro hactions
    exact ⟨s, hs, rfl, hactions⟩

end Collection

end TableParsing
