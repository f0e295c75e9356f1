import TableParsing.Proofs.Collection.Items

/-!
# The automaton of a collection

What the states of a finished collection say, state by state: which items a state holds (`Holds`),
and where a symbol leads (`Goes`). The first state holds the item of the added start symbol, a state
holds what its items call for, and a symbol after a dot leads to a state that holds the advanced
item. In the other direction, an item with a symbol before its dot comes from the state before
that symbol (`Linked.of_holds_advanced`), and the item of the added start symbol is in the first
state only, to which nothing leads (`Linked.eq_zero_of_holds`, `Linked.ne_zero_of_goes`).
-/

namespace TableParsing.Collection

open ItemSystem NumberedItem

/-- The state of a number holds an item. -/
def Holds (states : List State) (number : Int) (item : Item) : Prop :=
  ∃ s ∈ states, s.id = number ∧ item ∈ s.items.map toItem

/-- A symbol leads from the state of a number to that of another. -/
def Goes (states : List State) (number : Int) (symbol : Symbol) (next : Int) : Prop :=
  ∃ s ∈ states, s.id = number ∧ s.transitions.get? symbol = some next

variable {states : List State} {g : Grammar} {hasLookahead : Bool}

namespace Linked

variable {system : ItemSystem} (h : Linked system states.length [] states)
include h

/-- A state is found by its number. -/
theorem eq_of_id_eq {s t : State} (hs : s ∈ states) (ht : t ∈ states) (hid : s.id = t.id) :
    s = t := by
  obtain ⟨i, hi⟩ := List.getElem?_of_mem hs
  obtain ⟨j, hj⟩ := List.getElem?_of_mem ht
  rw [h.id i s hi, h.id j t hj, Int.natCast_inj] at hid
  subst hid
  rw [hi] at hj
  exact Option.some.inj hj

/-- The states have different numbers. -/
theorem pairwise_id_ne : states.Pairwise fun s t => s.id ≠ t.id := by
  rw [List.pairwise_iff_getElem]
  intro i j hi hj hij heq
  rw [h.id i _ (List.getElem?_eq_getElem hi), h.id j _ (List.getElem?_eq_getElem hj),
    Int.natCast_inj] at heq
  exact Nat.ne_of_lt hij heq

/-- A symbol leads to at most one state. -/
theorem goes_unique {number next next' : Int} {symbol : Symbol}
    (hgoes : Goes states number symbol next) (hgoes' : Goes states number symbol next') :
    next = next' := by
  obtain ⟨s, hs, rfl, hget⟩ := hgoes
  obtain ⟨s', hs', hid, hget'⟩ := hgoes'
  rw [h.eq_of_id_eq hs' hs hid, hget] at hget'
  exact Option.some.inj hget'

/-- A state has transitions exactly on the symbols after its dots. -/
theorem isSome_get?_iff {s : State} (hs : s ∈ states) {symbol : Symbol} :
    (s.transitions.get? symbol).isSome ↔ symbol ∈ expected s.items := by
  obtain ⟨i, hi⟩ := List.getElem?_of_mem hs
  rw [← OrderedMap.mem_keys_iff, h.keys i s hi, linkedSymbols,
    if_pos (List.getElem?_eq_some_iff.mp hi).1]

/-- A transition leads to the state that holds the items of the goto. -/
theorem exists_target {s : State} (hs : s ∈ states) {symbol : Symbol} {next : Int}
    (hget : s.transitions.get? symbol = some next) :
    ∃ t ∈ states, t.id = next ∧
      ∀ item, item ∈ t.items.map toItem ↔ item ∈ (system.goto s.items symbol).map toItem := by
  obtain ⟨i, hi⟩ := List.getElem?_of_mem hs
  obtain ⟨j, t, rfl, ht, hsame⟩ := h.target i s symbol next hi hget
  exact ⟨t, List.mem_of_getElem? ht, h.id j t ht, sameItems_iff.mp hsame⟩

/-- A symbol that leads on is after a dot. -/
theorem exists_holds_of_goes {number next : Int} {symbol : Symbol}
    (hgoes : Goes states number symbol next) :
    ∃ item, Holds states number item ∧ item.next? = some symbol := by
  obtain ⟨s, hs, hid, hget⟩ := hgoes
  have hexpected := (h.isSome_get?_iff hs).mp (by rw [hget]; rfl)
  obtain ⟨x, hx, hnext⟩ := List.mem_filterMap.mp (mem_distinct.mp hexpected)
  exact ⟨x.toItem, ⟨s, hs, hid, List.mem_map_of_mem hx⟩, hnext⟩

/-- A transition leads to the state that holds the items of the goto. -/
theorem holds_next_iff {s : State} (hs : s ∈ states) {symbol : Symbol} {next : Int}
    (hget : s.transitions.get? symbol = some next) {item : Item} :
    Holds states next item ↔ item ∈ (system.goto s.items symbol).map toItem := by
  obtain ⟨t, ht, rfl, hsame⟩ := h.exists_target hs hget
  rw [← hsame]
  constructor
  · rintro ⟨t', ht', hid, hitem⟩
    rwa [← h.eq_of_id_eq ht' ht hid]
  · intro hitem
    exact ⟨t, ht, rfl, hitem⟩

/-- The first state holds the closure of the item of the added start symbol. -/
theorem holds_zero_iff {item : Item} :
    Holds states 0 item ↔ item ∈ (system.start system.startLookahead).map toItem := by
  obtain ⟨s, hs, hitems⟩ := h.first
  show _ ↔ item ∈ (firstState system).items.map toItem
  rw [← hitems]
  constructor
  · rintro ⟨s', hs', hid, hitem⟩
    rwa [← h.eq_of_id_eq hs' (List.mem_of_getElem? hs) (hid.trans (h.id 0 s hs).symm)]
  · intro hitem
    exact ⟨s, List.mem_of_getElem? hs, h.id 0 s hs, hitem⟩

/-- The symbol after a dot leads to a state with the advanced item. -/
theorem exists_goes {number : Int} {item : Item} (hholds : Holds states number item)
    {symbol : Symbol} (hnext : item.next? = some symbol) :
    ∃ next, Goes states number symbol next ∧ Holds states next item.advance := by
  obtain ⟨s, hs, hid, hitem⟩ := hholds
  obtain ⟨x, hx, rfl⟩ := List.mem_map.mp hitem
  have hexpected : symbol ∈ expected s.items :=
    mem_distinct.mpr (List.mem_filterMap.mpr ⟨x, hx, hnext⟩)
  obtain ⟨next, hget⟩ := Option.isSome_iff_exists.mp ((h.isSome_get?_iff hs).mpr hexpected)
  refine ⟨next, ⟨s, hs, hid, hget⟩, (h.holds_next_iff hs hget).mpr ?_⟩
  exact mem_map_goto_of_mem hitem hnext

/-- A symbol after a dot leads to the state that has the items of the goto. -/
theorem goes_of_goto {s t : State} (hs : s ∈ states) (ht : t ∈ states) {symbol : Symbol}
    (hsymbol : symbol ∈ expected s.items) (hitems : t.items = system.goto s.items symbol) :
    Goes states s.id symbol t.id := by
  obtain ⟨next, hget⟩ := Option.isSome_iff_exists.mp ((h.isSome_get?_iff hs).mpr hsymbol)
  obtain ⟨i, hi⟩ := List.getElem?_of_mem hs
  obtain ⟨j, hj⟩ := List.getElem?_of_mem ht
  obtain ⟨k, t', rfl, ht', hsame⟩ := h.target i s symbol next hi hget
  -- The transition leads to a state with the same items, and so to this one.
  obtain rfl : k = j := by
    apply h.distinct k j t' t ht' hj
    rwa [hitems]
  exact ⟨s, hs, rfl, by rw [hget, h.id k t hj]⟩

/-- A state holds what its items call for. -/
theorem holds_called {number : Int} {item : Item} (hholds : Holds states number item)
    {called : NumberedItem} (hcalled : called ∈ system.calledFor item) :
    Holds states number called.toItem := by
  obtain ⟨s, hs, hid, hitem⟩ := hholds
  obtain ⟨i, hi⟩ := List.getElem?_of_mem hs
  have hclosed := h.induct
    (P := fun items => ∀ item ∈ items.map toItem, ∀ y ∈ system.calledFor item,
      y.toItem ∈ items.map toItem)
    (fun item hitem y hy => mem_map_closure_of_calledFor hitem hy)
    (fun items symbol _ item hitem y hy => mem_map_closure_of_calledFor hitem hy) i s hi
  exact ⟨s, hs, hid, hclosed item hitem called hcalled⟩

/-- The first state holds the item of the added start symbol. -/
theorem holds_start :
    Holds states 0
      (.dotted system.grammar.augmentedProduction.toRule 0 system.startLookahead) :=
  h.holds_zero_iff.mpr (mem_map_closure_of_mem List.mem_cons_self)

/-- What holds of the item of the added start symbol, and of all that items call for, holds of the
items of the first state. -/
theorem forall_holds_zero {P : Item → Prop}
    (hstart : P (.dotted system.grammar.augmentedProduction.toRule 0 system.startLookahead))
    (hcalled : ∀ item, P item → ∀ called ∈ system.calledFor item, P called.toItem) :
    ∀ item, Holds states 0 item → P item := by
  intro item hholds
  obtain ⟨x, hx, rfl⟩ := List.mem_map.mp (h.holds_zero_iff.mp hholds)
  refine forall_mem_closure (P := fun x => P x.toItem) ?_ (fun y hy z hz => ?_) x hx
  · intro y hy
    rw [List.mem_singleton.mp hy]
    exact hstart
  · exact hcalled y.toItem hy z hz

/-- What holds of the items that advance over a symbol, and of all that items call for, holds of the
items of the state that the symbol leads to. -/
theorem forall_holds_goes {number next : Int} {symbol : Symbol}
    (hgoes : Goes states number symbol next) {P : Item → Prop}
    (hadvance : ∀ item, Holds states number item → item.next? = some symbol → P item.advance)
    (hcalled : ∀ item, P item → ∀ called ∈ system.calledFor item, P called.toItem) :
    ∀ item, Holds states next item → P item := by
  intro item hholds
  obtain ⟨s, hs, hid, hget⟩ := hgoes
  obtain ⟨x, hx, rfl⟩ := List.mem_map.mp ((h.holds_next_iff hs hget).mp hholds)
  refine forall_mem_closure (P := fun x => P x.toItem) ?_ (fun y hy z hz => ?_) x hx
  · intro z hz
    obtain ⟨y, hy, rfl⟩ := List.mem_map.mp hz
    obtain ⟨hmem, hnext⟩ := List.mem_filter.mp hy
    exact hadvance y.toItem ⟨s, hs, hid, List.mem_map_of_mem hmem⟩ (of_decide_eq_true hnext)
  · exact hcalled y.toItem hy z hz

end Linked

namespace Linked

variable (h : Linked (computed g hasLookahead) states.length [] states)
include h

/-- A state holds productions with dots, and lookaheads that items can have. -/
theorem exists_production_of_holds {number : Int} {item : Item}
    (hholds : Holds states number item) :
    ∃ p ∈ g.allProductions, ∃ place ≤ p.body.length,
      ∃ lookahead ∈ (computed g hasLookahead).allLookaheads,
        item = .dotted p.toRule place lookahead := by
  obtain ⟨s, hs, -, hitem⟩ := hholds
  obtain ⟨x, hx, rfl⟩ := List.mem_map.mp hitem
  obtain ⟨p, hp, place, hplace, lookahead, hl, rfl⟩ := h.isItem hs x hx
  exact ⟨p, hp, place, hplace, lookahead, hl, rfl⟩

/-- A held item is in the list of the state, with the number of a production. -/
theorem exists_mem_items_of_holds {number : Int} {r : Rule} {place : Nat}
    {lookahead : Option Symbol} (hholds : Holds states number (.dotted r place lookahead)) :
    ∃ s ∈ states, s.id = number ∧ ∃ p ∈ g.allProductions, p.lhs = r.lhs ∧ p.body = r.body ∧
      dotted p place lookahead ∈ s.items := by
  obtain ⟨s, hs, hid, hitem⟩ := hholds
  obtain ⟨x, hx, hxr⟩ := List.mem_map.mp hitem
  obtain ⟨p, hp, place', -, lookahead', -, rfl⟩ := h.isItem hs x hx
  obtain ⟨hlhs, hbody, rfl, rfl⟩ := Item.dotted_inj.mp hxr
  exact ⟨s, hs, hid, p, hp, hlhs, hbody, hx⟩

/-- The symbol after a dot is a non-terminal or a terminal. -/
theorem symbol_cases_of_goes {number next : Int} {symbol : Symbol}
    (hgoes : Goes states number symbol next) :
    g.isNonTerminal symbol = true ∨ symbol ∈ g.terminals := by
  obtain ⟨item, hholds, hnext⟩ := h.exists_holds_of_goes hgoes
  obtain ⟨p, hp, place, -, lookahead, -, rfl⟩ := h.exists_production_of_holds hholds
  rw [Item.next?_dotted] at hnext
  exact Grammar.isNonTerminal_or_mem_terminals_of_mem_body hp (List.mem_of_getElem? hnext)

/-- An item of the first state has its dot before the body; it is that of the added start symbol,
or an item of the state calls for it. -/
theorem holds_zero_cases {item : Item} (hholds : Holds states 0 item) :
    (∃ p ∈ g.allProductions, ∃ lookahead, item = .dotted p.toRule 0 lookahead) ∧
      (item.lhs = g.augmentedStart ∨
        ∃ caller, Holds states 0 caller ∧ caller.next? = some item.lhs) := by
  obtain ⟨x, hx, rfl⟩ := List.mem_map.mp (h.holds_zero_iff.mp hholds)
  rcases mem_closure_cases x hx with hx | ⟨caller, hcaller, hx⟩
  · rw [List.mem_singleton.mp hx]
    exact ⟨⟨_, List.mem_cons_self, _, rfl⟩, Or.inl rfl⟩
  · obtain ⟨p, hp, hnext, lookahead, -, rfl⟩ := mem_calledFor.mp hx
    refine ⟨⟨p, List.mem_cons_of_mem _ hp, _, rfl⟩, Or.inr ⟨caller, ?_, hnext⟩⟩
    exact h.holds_zero_iff.mpr hcaller

/-- An item of a state that a symbol leads to has advanced over the symbol, or it is the first item
of a production that an item of the state calls for. -/
theorem holds_goes_cases {number next : Int} {symbol : Symbol}
    (hgoes : Goes states number symbol next) {item : Item} (hholds : Holds states next item) :
    (∃ p ∈ g.allProductions, ∃ place lookahead, item = .dotted p.toRule (place + 1) lookahead ∧
      p.body[place]? = some symbol ∧ Holds states number (.dotted p.toRule place lookahead)) ∨
    ∃ p ∈ g.productions, ∃ lookahead, item = .dotted p.toRule 0 lookahead ∧
      ∃ caller, Holds states next caller ∧ caller.next? = some p.lhs := by
  obtain ⟨s, hs, hid, hget⟩ := hgoes
  obtain ⟨x, hx, rfl⟩ := List.mem_map.mp ((h.holds_next_iff hs hget).mp hholds)
  rcases mem_goto_cases x hx with ⟨y, hy, hnext, rfl⟩ | ⟨caller, hcaller, hx⟩
  · obtain ⟨p, hp, place, -, lookahead, -, rfl⟩ := h.isItem hs y hy
    have hnext : (Item.dotted p.toRule place lookahead).next? = some symbol := hnext
    rw [Item.next?_dotted] at hnext
    exact Or.inl ⟨p, hp, place, lookahead, rfl, hnext, s, hs, hid, List.mem_map_of_mem hy⟩
  · obtain ⟨p, hp, hnext, lookahead, -, rfl⟩ := mem_calledFor.mp hx
    refine Or.inr ⟨p, hp, lookahead, rfl, caller, ?_, hnext⟩
    exact (h.holds_next_iff hs hget).mpr hcaller

/-- Any state but the first is reached by a symbol. -/
theorem exists_goes_of_holds {number : Int} {item : Item} (hholds : Holds states number item) :
    number = 0 ∨ ∃ before symbol, Goes states before symbol number := by
  obtain ⟨t, ht, rfl, -⟩ := hholds
  obtain ⟨j, hj⟩ := List.getElem?_of_mem ht
  rcases h.reached j t hj with rfl | ⟨i, s, symbol, -, hs, hsymbol, hitems⟩
  · exact Or.inl (h.id 0 t hj)
  · exact Or.inr ⟨s.id, symbol, h.goes_of_goto (List.mem_of_getElem? hs) ht hsymbol hitems⟩

/-- The dots of the first state are before the bodies. -/
theorem place_eq_zero_of_holds {r : Rule} {place : Nat} {lookahead : Option Symbol}
    (hholds : Holds states 0 (.dotted r place lookahead)) : place = 0 := by
  obtain ⟨⟨p, -, lookahead', hitem⟩, -⟩ := h.holds_zero_cases hholds
  exact (Item.dotted_inj.mp hitem).2.2.1

/-- An item with a symbol before its dot comes from the state before that symbol. -/
theorem of_holds_advanced {number next : Int} {symbol : Symbol}
    (hgoes : Goes states number symbol next) {r : Rule} {place : Nat} {lookahead : Option Symbol}
    (hholds : Holds states next (.dotted r (place + 1) lookahead)) :
    r.body[place]? = some symbol ∧ Holds states number (.dotted r place lookahead) := by
  rcases h.holds_goes_cases hgoes hholds with
    ⟨p, -, place', lookahead', hitem, hnext, hbefore⟩ | ⟨p, -, lookahead', hitem, -⟩
  · obtain ⟨hlhs, hbody, hplace, rfl⟩ := Item.dotted_inj.mp hitem
    obtain rfl := Nat.succ.inj hplace
    refine ⟨hbody ▸ hnext, ?_⟩
    rwa [Item.dotted_inj.mpr ⟨hlhs, hbody, rfl, rfl⟩]
  · exact absurd (Item.dotted_inj.mp hitem).2.2.1 (Nat.succ_ne_zero place)

/-- The first item of a rule is called for, unless it is that of the added start symbol. -/
theorem exists_caller {number : Int} {r : Rule} {lookahead : Option Symbol}
    (hholds : Holds states number (.dotted r 0 lookahead)) (hlhs : r.lhs ≠ g.augmentedStart) :
    ∃ caller, Holds states number caller ∧ caller.next? = some r.lhs := by
  rcases h.exists_goes_of_holds hholds with rfl | ⟨before, symbol, hgoes⟩
  · exact (h.holds_zero_cases hholds).2.resolve_left hlhs
  · rcases h.holds_goes_cases hgoes hholds with
      ⟨p, -, place, lookahead', hitem, -⟩ | ⟨p, -, lookahead', hitem, caller, hcaller, hnext⟩
    · exact absurd (Item.dotted_inj.mp hitem).2.2.1 (Nat.succ_ne_zero place).symm
    · exact ⟨caller, hcaller, by rw [hnext, (Item.dotted_inj.mp hitem).1]⟩

/-- A state that a symbol leads to does not hold the item of the added start symbol. -/
theorem lhs_ne_of_goes {number next : Int} {symbol : Symbol}
    (hgoes : Goes states number symbol next) {r : Rule} {lookahead : Option Symbol}
    (hholds : Holds states next (.dotted r 0 lookahead)) : r.lhs ≠ g.augmentedStart := by
  rcases h.holds_goes_cases hgoes hholds with
    ⟨p, -, place, lookahead', hitem, -⟩ | ⟨p, hp, lookahead', hitem, -⟩
  · exact absurd (Item.dotted_inj.mp hitem).2.2.1 (Nat.succ_ne_zero place).symm
  · rw [(Item.dotted_inj.mp hitem).1]
    exact Grammar.lhs_ne_augmentedStart hp

/-- Nothing leads to the first state. -/
theorem ne_zero_of_goes {number next : Int} {symbol : Symbol}
    (hgoes : Goes states number symbol next) : next ≠ 0 := by
  rintro rfl
  exact h.lhs_ne_of_goes hgoes h.holds_start rfl

/-- Only the first state holds the item of the added start symbol. -/
theorem eq_zero_of_holds {number : Int} {r : Rule} {lookahead : Option Symbol}
    (hholds : Holds states number (.dotted r 0 lookahead)) (hlhs : r.lhs = g.augmentedStart) :
    number = 0 := by
  rcases h.exists_goes_of_holds hholds with rfl | ⟨before, symbol, hgoes⟩
  · rfl
  · exact absurd hlhs (h.lhs_ne_of_goes hgoes hholds)

end Linked

end TableParsing.Collection
