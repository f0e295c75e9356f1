import TableParsing.Proofs.Collection.Items
import TableParsing.Proofs.Table.Cells

/-!
# The entries of a shift-reduce table

What a state asks for under a symbol (`RowEntry`): a shift or goto for a transition, an acceptance
for the complete item of the added start symbol, and a reduction for any other complete item under
the symbols that the algorithm allows (`MayReduce`). The entries of a table can be listed whenever
its states have items of the grammar only, and they are what the states ask for
(`exists_allEntries`).
-/

namespace TableParsing

/-! ## What a state asks for -/

/-- The production with the number of a production is that production. -/
theorem Grammar.production?_index {g : Grammar} {p : Production} (hp : p ∈ g.productions) :
    g.production? p.index = some p := by
  obtain ⟨i, hi⟩ := List.getElem?_of_mem hp
  have hi' := hi
  rw [getElem?_productions, Option.map_eq_some_iff] at hi'
  obtain ⟨r, -, rfl⟩ := hi'
  have hsign : ¬ (i : Int) < 0 := Int.not_lt.mpr (Int.natCast_nonneg i)
  rw [production?, if_neg hsign, if_pos (Int.natCast_nonneg i), Int.toNat_natCast, hi]

/-- Productions with the same number are the same. -/
theorem Grammar.eq_of_index_eq {g : Grammar} {p q : Production} (hp : p ∈ g.productions)
    (hq : q ∈ g.productions) (hindex : p.index = q.index) : p = q := by
  have hsame := Grammar.production?_index hp
  rw [hindex, Grammar.production?_index hq] at hsame
  exact (Option.some.inj hsame).symm

namespace Table

open NumberedItem ItemSystem

variable {g : Grammar} {algorithm : Algorithm}

/-- The symbols under which an algorithm reduces to a non-terminal from an item with a
lookahead. -/
def MayReduce (g : Grammar) (algorithm : Algorithm) (lhs : Symbol) (lookahead : Option Symbol)
    (symbol : Symbol) : Prop :=
  match algorithm with
  | .lr0 => symbol ∈ g.terminals ++ [endMarker]
  | .slr1 => symbol ∈ FirstFollow.setOf (FirstFollow.compute g).follow lhs
  | .ll1 | .lr1 => lookahead = some symbol

/-- An algorithm reduces under terminals and the end marker. -/
theorem symbol_cases_of_mayReduce {p : Production} {place : Nat} {lookahead : Option Symbol}
    (hitem : IsItem (computed g (algorithm = .lr1)) (dotted p place lookahead)) {symbol : Symbol}
    (h : MayReduce g algorithm p.lhs lookahead symbol) :
    symbol ∈ g.terminals ∨ symbol = endMarker := by
  obtain ⟨q, -, place', -, lookahead', hl, heq⟩ := hitem
  obtain ⟨-, -, -, rfl⟩ := Item.dotted_inj.mp (congrArg NumberedItem.toItem heq)
  cases algorithm with
  | lr0 => simpa [MayReduce] using h
  | slr1 => exact ((FirstFollow.followInRange_compute g).mem _ _ h).symm
  | ll1 =>
      rw [List.mem_singleton.mp hl] at h
      cases h
  | lr1 =>
      rw [show lookahead = some symbol from h] at hl
      simpa [allLookaheads] using hl

/-- The actions that an item asks for under a symbol. -/
inductive ItemEntry (g : Grammar) (algorithm : Algorithm) (x : NumberedItem) (symbol : Symbol) :
    Action → Prop
  | accept {lookahead : Option Symbol}
      (hx : x = dotted g.augmentedProduction g.augmentedProduction.body.length lookahead)
      (hsymbol : symbol = endMarker) (hend : algorithm ≠ .lr1 ∨ lookahead = some endMarker) :
      ItemEntry g algorithm x symbol .accept
  | reduce {p : Production} {lookahead : Option Symbol} (hp : p ∈ g.productions)
      (hx : x = dotted p p.body.length lookahead)
      (hmay : MayReduce g algorithm p.lhs lookahead symbol) :
      ItemEntry g algorithm x symbol (.reduce p)

/-- The actions that a state asks for under a symbol. -/
inductive RowEntry (g : Grammar) (algorithm : Algorithm) (s : State) (symbol : Symbol) :
    Action → Prop
  | shift {next : Int} (hget : s.transitions.get? symbol = some next)
      (hterminal : g.isNonTerminal symbol = false) : RowEntry g algorithm s symbol (.shift next)
  | goto {next : Int} (hget : s.transitions.get? symbol = some next)
      (hn : g.isNonTerminal symbol = true) : RowEntry g algorithm s symbol (.goto next)
  | item {x : NumberedItem} {a : Action} (hx : x ∈ s.items)
      (hentry : ItemEntry g algorithm x symbol a) : RowEntry g algorithm s symbol a

/-- States ask for no conflicts. -/
theorem RowEntry.not_isConflict {s : State} {symbol : Symbol} {a : Action}
    (h : RowEntry g algorithm s symbol a) : a.isConflict = false := by
  cases h with
  | shift | goto => rfl
  | item hx hentry => cases hentry <;> rfl

/-- An item that asks for an action is complete. -/
theorem ItemEntry.isComplete {x : NumberedItem} {symbol : Symbol} {a : Action}
    (h : ItemEntry g algorithm x symbol a) : x.isComplete = true := by
  cases h with
  | accept hx | reduce _ hx =>
      rw [hx]
      exact Item.isComplete_dotted.mpr (Nat.le_refl _)

/-- With lookaheads in items, an item asks for an action under its lookahead only. -/
theorem ItemEntry.awaits {x : NumberedItem} {symbol : Symbol} {a : Action}
    (h : ItemEntry g .lr1 x symbol a) : x.next? = none ∧ x.lookahead = some symbol := by
  cases h with
  | accept hx hsymbol hend =>
      subst hx
      refine ⟨by simp [dotted], ?_⟩
      rw [hsymbol]
      exact hend.resolve_left fun h => h rfl
  | reduce _ hx hmay =>
      subst hx
      exact ⟨by simp [dotted], hmay⟩

/-- Complete items of productions with the same number have the same left-hand side and
lookahead. -/
theorem eq_of_dotted_eq {p q : Production} {place place' : Nat}
    {lookahead lookahead' : Option Symbol}
    (h : dotted p place lookahead = dotted q place' lookahead') :
    p.lhs = q.lhs ∧ p.index = q.index ∧ lookahead = lookahead' := by
  obtain ⟨hlhs, -, -, hlookahead⟩ := Item.dotted_inj.mp (congrArg NumberedItem.toItem h)
  exact ⟨hlhs, congrArg NumberedItem.index h, hlookahead⟩

/-- What the complete item of the added start symbol asks for. -/
theorem itemEntry_augmented_iff {lookahead : Option Symbol} {symbol : Symbol} {a : Action} :
    ItemEntry g algorithm
        (dotted g.augmentedProduction g.augmentedProduction.body.length lookahead) symbol a ↔
      symbol = endMarker ∧ a = .accept ∧ (algorithm ≠ .lr1 ∨ lookahead = some endMarker) := by
  constructor
  · intro h
    cases h with
    | accept hx hsymbol hend =>
        obtain ⟨-, -, rfl⟩ := eq_of_dotted_eq hx
        exact ⟨hsymbol, rfl, hend⟩
    | reduce hp hx =>
        exact absurd (eq_of_dotted_eq hx).1.symm (Grammar.lhs_ne_augmentedStart hp)
  · rintro ⟨hsymbol, rfl, hend⟩
    exact .accept rfl hsymbol hend

/-- What the complete item of a production asks for. -/
theorem itemEntry_production_iff {p : Production} (hp : p ∈ g.productions)
    {lookahead : Option Symbol} {symbol : Symbol} {a : Action} :
    ItemEntry g algorithm (dotted p p.body.length lookahead) symbol a ↔
      MayReduce g algorithm p.lhs lookahead symbol ∧ a = .reduce p := by
  constructor
  · intro h
    cases h with
    | accept hx => exact absurd (eq_of_dotted_eq hx).1 (Grammar.lhs_ne_augmentedStart hp)
    | @reduce q _ hq hx hmay =>
        obtain ⟨-, hindex, rfl⟩ := eq_of_dotted_eq hx
        obtain rfl := Grammar.eq_of_index_eq hp hq hindex
        exact ⟨hmay, rfl⟩
  · rintro ⟨hmay, rfl⟩
    exact .reduce hp rfl hmay

/-- A numbered item asks for one action. -/
theorem ItemEntry.unique {x : NumberedItem} {symbol : Symbol} {a b : Action}
    (ha : ItemEntry g algorithm x symbol a) (hb : ItemEntry g algorithm x symbol b) : a = b := by
  cases ha with
  | accept hx =>
      subst hx
      exact (itemEntry_augmented_iff.mp hb).2.1.symm
  | reduce hp hx =>
      subst hx
      exact ((itemEntry_production_iff hp).mp hb).2.symm

/-! ## The entries of items -/

/-- The columns under which an item reduces. -/
theorem exists_reduceColumns (algorithm : Algorithm) {item : Item}
    (hlhs : g.isNonTerminal item.lhs = true) :
    ∃ columns, reduceColumns g (FirstFollow.compute g) algorithm item = .ok columns ∧
      ∀ symbol, symbol ∈ columns ↔ MayReduce g algorithm item.lhs item.lookahead symbol := by
  cases algorithm with
  | lr0 => exact ⟨_, rfl, fun _ => Iff.rfl⟩
  | slr1 =>
      obtain ⟨follow, hfollow⟩ := Option.isSome_iff_exists.mp
        (((FirstFollow.followInRange_compute g).isSome_iff item.lhs).mpr hlhs)
      refine ⟨follow.toList, by rw [reduceColumns, hfollow], fun symbol => ?_⟩
      rw [MayReduce, FirstFollow.setOf, hfollow, Option.getD_some]
      exact SymbolSet.mem_def
  | ll1 | lr1 => exact ⟨item.lookahead.toList, rfl, fun _ => Option.mem_toList⟩

/-- An item that is not complete makes no entries. -/
theorem itemEntries_of_not_isComplete {sets : FirstFollow} {augmented : Production}
    {x : NumberedItem} (h : x.isComplete = false) :
    itemEntries g sets algorithm augmented x = .ok [] := by
  rw [itemEntries, h, Bool.not_false, if_pos rfl]

/-- The entries of the complete item of the added start symbol. -/
theorem itemEntries_augmented (sets : FirstFollow) (lookahead : Option Symbol) :
    itemEntries g sets algorithm g.augmentedProduction
        (dotted g.augmentedProduction g.augmentedProduction.body.length lookahead) =
      .ok (if algorithm ≠ .lr1 ∨ lookahead = some endMarker then [(endMarker, .accept)]
        else []) := by
  have hcomplete : (dotted g.augmentedProduction g.augmentedProduction.body.length
      lookahead).isComplete = true := Item.isComplete_dotted.mpr (Nat.le_refl _)
  have hlhs : (dotted g.augmentedProduction g.augmentedProduction.body.length lookahead).lhs =
      g.augmentedProduction.lhs := rfl
  rw [itemEntries, hcomplete, Bool.not_true, if_neg Bool.false_ne_true, if_pos hlhs]
  exact (apply_ite Except.ok _ _ _).symm

/-- The entries of the complete item of a production. -/
theorem exists_itemEntries_production (algorithm : Algorithm) {p : Production}
    (hp : p ∈ g.productions) (lookahead : Option Symbol) :
    ∃ columns : List Symbol,
      itemEntries g (FirstFollow.compute g) algorithm g.augmentedProduction
          (dotted p p.body.length lookahead) =
        .ok (columns.map fun symbol => (symbol, .reduce p)) ∧
      ∀ symbol, symbol ∈ columns ↔ MayReduce g algorithm p.lhs lookahead symbol := by
  have hn : g.isNonTerminal (dotted p p.body.length lookahead).lhs = true :=
    Grammar.isNonTerminal_lhs (Grammar.toRule_mem_rules hp)
  obtain ⟨columns, hcolumns, hmem⟩ := exists_reduceColumns algorithm hn
  have hcomplete : (dotted p p.body.length lookahead).isComplete = true :=
    Item.isComplete_dotted.mpr (Nat.le_refl _)
  have hlhs : ¬ (dotted p p.body.length lookahead).lhs = g.augmentedProduction.lhs :=
    Grammar.lhs_ne_augmentedStart hp
  have hproduction : g.production? (dotted p p.body.length lookahead).index = some p :=
    Grammar.production?_index hp
  refine ⟨columns, ?_, hmem⟩
  rw [itemEntries, hcomplete, Bool.not_true, if_neg Bool.false_ne_true, if_neg hlhs, hproduction]
  simp only
  rw [hcolumns]
  rfl

/-- The entries of an item are what it asks for. -/
theorem exists_itemEntries (algorithm : Algorithm) {hasLookahead : Bool} {x : NumberedItem}
    (hx : IsItem (computed g hasLookahead) x) :
    ∃ entries,
      itemEntries g (FirstFollow.compute g) algorithm g.augmentedProduction x = .ok entries ∧
      ∀ symbol a, (symbol, a) ∈ entries ↔ ItemEntry g algorithm x symbol a := by
  cases hcomplete : x.isComplete with
  | false =>
      refine ⟨[], itemEntries_of_not_isComplete hcomplete, fun symbol a => ?_⟩
      apply iff_of_false List.not_mem_nil
      intro h
      rw [h.isComplete] at hcomplete
      exact Bool.noConfusion hcomplete
  | true =>
      obtain ⟨p, hp, place, hplace, lookahead, -, rfl⟩ := hx
      obtain rfl := Nat.le_antisymm hplace (Item.isComplete_dotted.mp hcomplete)
      rw [grammar_computed] at hp
      rcases List.mem_cons.mp hp with rfl | hp
      · refine ⟨_, itemEntries_augmented _ lookahead, fun symbol a => ?_⟩
        rw [itemEntry_augmented_iff]
        split
        · next hend => rw [List.mem_singleton, Prod.mk.injEq, and_iff_left hend]
        · next hend => exact iff_of_false List.not_mem_nil fun h => hend h.2.2
      · obtain ⟨columns, hentries, hmem⟩ := exists_itemEntries_production algorithm hp lookahead
        refine ⟨_, hentries, fun symbol a => ?_⟩
        rw [itemEntry_production_iff hp, ← hmem, List.mem_map]
        constructor
        · rintro ⟨symbol', hsymbol, heq⟩
          cases heq
          exact ⟨hsymbol, rfl⟩
        · rintro ⟨hsymbol, rfl⟩
          exact ⟨symbol, hsymbol, rfl⟩

/-! ## The entries of rows -/

/-- The entries of some items are what these ask for. -/
theorem exists_allItemEntries (algorithm : Algorithm) {hasLookahead : Bool} :
    (items : List NumberedItem) → (∀ x ∈ items, IsItem (computed g hasLookahead) x) →
      ∃ entries,
        allItemEntries g (FirstFollow.compute g) algorithm g.augmentedProduction items =
          .ok entries ∧
        ∀ symbol a, (symbol, a) ∈ entries ↔ ∃ x ∈ items, ItemEntry g algorithm x symbol a
  | [], _ => ⟨[], rfl, fun _ _ => by simp⟩
  | x :: items, hitems => by
      obtain ⟨own, hown, hmem⟩ := exists_itemEntries algorithm (hitems x List.mem_cons_self)
      obtain ⟨others, hothers, hmem'⟩ := exists_allItemEntries algorithm items fun y hy =>
        hitems y (List.mem_cons_of_mem _ hy)
      refine ⟨own ++ others, by rw [allItemEntries, hown, hothers]; rfl, fun symbol a => ?_⟩
      rw [List.mem_append, hmem, hmem', List.exists_mem_cons_iff]

/-- The entry of a transition. -/
theorem transitionEntry_eq_iff {symbol symbol' : Symbol} {next : Int} {a : Action} :
    transitionEntry g symbol' next = (symbol, a) ↔
      symbol' = symbol ∧
        ((g.isNonTerminal symbol = true ∧ a = .goto next) ∨
          (g.isNonTerminal symbol = false ∧ a = .shift next)) := by
  rw [transitionEntry, Prod.mk.injEq]
  apply and_congr_right
  rintro rfl
  cases g.isNonTerminal symbol' <;> simp [eq_comm]

/-- The entries of a row are what its state asks for. -/
theorem exists_entriesOf (algorithm : Algorithm) {hasLookahead : Bool} {s : State}
    (hitems : ∀ x ∈ s.items, IsItem (computed g hasLookahead) x) :
    ∃ entries,
      entriesOf g (FirstFollow.compute g) algorithm g.augmentedProduction s = .ok entries ∧
      ∀ symbol a, (symbol, a) ∈ entries ↔ RowEntry g algorithm s symbol a := by
  obtain ⟨reductions, hreductions, hmem⟩ := exists_allItemEntries algorithm s.items hitems
  refine ⟨_, by rw [entriesOf, hreductions]; rfl, fun symbol a => ?_⟩
  rw [List.mem_append, hmem, List.mem_map]
  constructor
  · rintro (⟨⟨symbol', next⟩, hstep, heq⟩ | ⟨x, hx, hentry⟩)
    · obtain ⟨rfl, ⟨hn, rfl⟩ | ⟨hterminal, rfl⟩⟩ := transitionEntry_eq_iff.mp heq
      · exact .goto (OrderedMap.get?_eq_some_iff.mpr hstep) hn
      · exact .shift (OrderedMap.get?_eq_some_iff.mpr hstep) hterminal
    · exact .item hx hentry
  · intro h
    cases h with
    | shift hget hterminal =>
        exact Or.inl ⟨_, OrderedMap.get?_eq_some_iff.mp hget,
          transitionEntry_eq_iff.mpr ⟨rfl, Or.inr ⟨hterminal, rfl⟩⟩⟩
    | goto hget hn =>
        exact Or.inl ⟨_, OrderedMap.get?_eq_some_iff.mp hget,
          transitionEntry_eq_iff.mpr ⟨rfl, Or.inl ⟨hn, rfl⟩⟩⟩
    | item hx hentry => exact Or.inr ⟨_, hx, hentry⟩

/-- The entries of all rows are what the states ask for. -/
theorem exists_allEntries (algorithm : Algorithm) {hasLookahead : Bool} :
    (states : List State) → (∀ s ∈ states, ∀ x ∈ s.items, IsItem (computed g hasLookahead) x) →
      ∃ entries,
        allEntries g (FirstFollow.compute g) algorithm g.augmentedProduction states =
          .ok entries ∧
        ∀ row symbol a, (row, symbol, a) ∈ entries ↔
          ∃ s ∈ states, row = .state s.id ∧ RowEntry g algorithm s symbol a
  | [], _ => ⟨[], rfl, fun _ _ _ => by simp⟩
  | s :: states, hstates => by
      obtain ⟨own, hown, hmem⟩ := exists_entriesOf algorithm (hstates s List.mem_cons_self)
      obtain ⟨others, hothers, hmem'⟩ := exists_allEntries algorithm states fun t ht =>
        hstates t (List.mem_cons_of_mem _ ht)
      refine ⟨_, by rw [allEntries, hown, hothers]; rfl, fun row symbol a => ?_⟩
      rw [List.mem_append, hmem', List.exists_mem_cons_iff, ← hmem, List.mem_map]
      refine or_congr ?_ Iff.rfl
      constructor
      · rintro ⟨entry, hentry, heq⟩
        cases heq
        exact ⟨rfl, hentry⟩
      · rintro ⟨rfl, hentry⟩
        exact ⟨_, hentry, rfl⟩

end Table

end TableParsing
