import TableParsing.Proofs.Collection.Automaton

/-!
# Paths through the automaton

A list of symbols leads from one state to another if each symbol leads on from where the last one
led (`Leads`). It leads to at most one state (`Linked.leads_unique`), and every state is reached
from the first one (`Linked.exists_leads`).

The items that the symbols lead to are found by the same three clauses everywhere: the first item,
an advance, and a call (`Linked.forall_holds_leads`). The body of a rule whose first item a state
holds leads on from that state, symbol by symbol, and the item advances along (`Linked.leads_take`).

So the paths of one automaton are paths of another, if some property holds of its items at the
states of the other and goes along with them (`exists_leads_of_carries`), such as that the images
under a map of items are held there (`exists_leads_map`).
-/

namespace TableParsing.Collection

open ItemSystem

variable {states : List State} {number middle last : Int} {symbols others : List Symbol}

/-- Some symbols lead from the state of a number to that of another. -/
def Leads (states : List State) : Int → List Symbol → Int → Prop
  | number, [], last => number = last
  | number, symbol :: symbols, last =>
    ∃ next, Goes states number symbol next ∧ Leads states next symbols last

/-- The path along no symbols. -/
theorem Leads.refl (states : List State) (number : Int) : Leads states number [] number := rfl

/-- A path along two lists of symbols is a path along the one and then the other. -/
theorem leads_append :
    (symbols : List Symbol) → {number : Int} →
      (Leads states number (symbols ++ others) last ↔
        ∃ middle, Leads states number symbols middle ∧ Leads states middle others last)
  | [], number => by simp [Leads]
  | symbol :: symbols, number => by
      simp only [List.cons_append, Leads, leads_append symbols]
      constructor
      · rintro ⟨next, hgoes, middle, hfirst, hrest⟩
        exact ⟨middle, ⟨next, hgoes, hfirst⟩, hrest⟩
      · rintro ⟨middle, ⟨next, hgoes, hfirst⟩, hrest⟩
        exact ⟨next, hgoes, middle, hfirst, hrest⟩

/-- A path with one more symbol. -/
theorem leads_append_singleton {symbol : Symbol} :
    Leads states number (symbols ++ [symbol]) last ↔
      ∃ middle, Leads states number symbols middle ∧ Goes states middle symbol last := by
  rw [leads_append]
  simp [Leads]

/-- A path is continued by a symbol. -/
theorem Leads.tail (h : Leads states number symbols middle) {symbol : Symbol}
    (hgoes : Goes states middle symbol last) : Leads states number (symbols ++ [symbol]) last :=
  leads_append_singleton.mpr ⟨middle, h, hgoes⟩

namespace Linked

variable {system : ItemSystem} (h : Linked system states.length [] states)
include h

/-- Symbols lead to at most one state. -/
theorem leads_unique :
    (symbols : List Symbol) → {number last last' : Int} → Leads states number symbols last →
      Leads states number symbols last' → last = last'
  | [], _, _, _, hleads, hleads' => hleads.symm.trans hleads'
  | symbol :: symbols, _, _, _, ⟨next, hgoes, hleads⟩, ⟨next', hgoes', hleads'⟩ => by
      obtain rfl := h.goes_unique hgoes hgoes'
      exact leads_unique symbols hleads hleads'

/-- Every state is reached from the first one. -/
theorem exists_leads {s : State} (hs : s ∈ states) :
    ∃ symbols, Leads states 0 symbols s.id := by
  obtain ⟨i, hi⟩ := List.getElem?_of_mem hs
  clear hs
  -- Each state has the items of a goto out of an earlier one.
  induction i using Nat.strong_induction_on generalizing s with
  | _ i ih =>
      rcases h.reached i s hi with rfl | ⟨j, t, symbol, hlt, ht, hsymbol, hitems⟩
      · exact ⟨[], (h.id 0 s hi).symm⟩
      · obtain ⟨symbols, hleads⟩ := ih j hlt ht
        refine ⟨symbols ++ [symbol], hleads.tail ?_⟩
        exact h.goes_of_goto (List.mem_of_getElem? ht) (List.mem_of_getElem? hi) hsymbol hitems

/-- What holds of the item of the added start symbol where nothing is read, of what items advance to
and of what they call for, holds of the items that some symbols lead to. -/
theorem forall_holds_leads {P : List Symbol → Item → Prop}
    (hstart : P [] (.dotted system.grammar.augmentedProduction.toRule 0 system.startLookahead))
    (hadvance : ∀ symbols item, P symbols item → ∀ symbol, item.next? = some symbol →
      P (symbols ++ [symbol]) item.advance)
    (hcalled : ∀ symbols item, P symbols item → ∀ called ∈ system.calledFor item,
      P symbols called.toItem)
    (hleads : Leads states 0 symbols number) :
    ∀ item, Holds states number item → P symbols item := by
  induction symbols using List.reverseRecOn generalizing number with
  | nil =>
      obtain rfl : 0 = number := hleads
      exact h.forall_holds_zero hstart (hcalled [])
  | append_singleton symbols symbol ih =>
      obtain ⟨middle, hfirst, hgoes⟩ := leads_append_singleton.mp hleads
      refine h.forall_holds_goes hgoes (fun item hholds hnext => ?_) (hcalled _)
      exact hadvance symbols item (ih hfirst item hholds) symbol hnext

/-- A state that is reached from the first one holds an item. -/
theorem exists_holds_of_leads (hleads : Leads states 0 symbols number) :
    ∃ item, Holds states number item := by
  rcases List.eq_nil_or_concat' symbols with rfl | ⟨symbols, symbol, rfl⟩
  · obtain rfl : 0 = number := hleads
    exact ⟨_, h.holds_start⟩
  · obtain ⟨middle, -, hgoes⟩ := leads_append_singleton.mp hleads
    obtain ⟨item, hholds, hnext⟩ := h.exists_holds_of_goes hgoes
    obtain ⟨next, hgoes', hadvanced⟩ := h.exists_goes hholds hnext
    obtain rfl := h.goes_unique hgoes hgoes'
    exact ⟨item.advance, hadvanced⟩

/-- The symbols of a body lead on from a state with the first item of the rule, and the item
advances over them. -/
theorem leads_take {r : Rule} {lookahead : Option Symbol}
    (hholds : Holds states number (.dotted r 0 lookahead)) :
    (place : Nat) → place ≤ r.body.length →
      ∃ next, Leads states number (r.body.take place) next ∧
        Holds states next (.dotted r place lookahead)
  | 0, _ => ⟨number, rfl, hholds⟩
  | place + 1, hplace => by
      obtain ⟨middle, hleads, hbefore⟩ := leads_take hholds place (Nat.le_of_succ_le hplace)
      have hsymbol : r.body[place]? = some r.body[place] := List.getElem?_eq_getElem hplace
      obtain ⟨next, hgoes, hadvanced⟩ :=
        h.exists_goes hbefore (by rw [Item.next?_dotted, hsymbol])
      refine ⟨next, ?_, hadvanced⟩
      rw [List.take_add_one, hsymbol]
      exact hleads.tail hgoes

end Linked

/-! ## From one automaton to another -/

/-- A property of the items of one system at the states of another automaton that holds of the first
item at the first state, goes on to what an item calls for, and goes along with an item that
advances, as the symbol after the dot leads on in that automaton. -/
structure Carries (system : ItemSystem) (states' : List State) (P : Int → Item → Prop) :
    Prop where
  /-- The item of the added start symbol has it. -/
  start : P 0 (.dotted system.grammar.augmentedProduction.toRule 0 system.startLookahead)
  /-- What an item calls for has it. -/
  called : ∀ number item, P number item → ∀ called ∈ system.calledFor item,
    P number called.toItem
  /-- The symbol after the dot leads on. -/
  exists_goes : ∀ number item symbol, P number item → item.next? = some symbol →
    ∃ next, Goes states' number symbol next
  /-- The item that has advanced has it where the symbol leads. -/
  advance : ∀ number item symbol next, P number item → item.next? = some symbol →
    Goes states' number symbol next → P next item.advance

/-- Symbols that lead somewhere in the one automaton do so in the other, and the items that are held
have the property there. -/
theorem exists_leads_of_carries {system : ItemSystem} {states states' : List State}
    {P : Int → Item → Prop} (h : Linked system states.length [] states)
    (hcarries : Carries system states' P) {symbols : List Symbol} {number : Int}
    (hleads : Leads states 0 symbols number) :
    ∃ number', Leads states' 0 symbols number' ∧
      ∀ item, Holds states number item → P number' item := by
  induction symbols using List.reverseRecOn generalizing number with
  | nil =>
      obtain rfl : 0 = number := hleads
      exact ⟨0, .refl states' 0, h.forall_holds_zero hcarries.start (hcarries.called 0)⟩
  | append_singleton symbols symbol ih =>
      obtain ⟨middle, hleads, hgoes⟩ := leads_append_singleton.mp hleads
      obtain ⟨middle', hleads', hitems⟩ := ih hleads
      -- The symbol is after a dot in the one automaton, so it leads on in the other.
      obtain ⟨item, hholds, hnext⟩ := h.exists_holds_of_goes hgoes
      obtain ⟨number', hgoes'⟩ := hcarries.exists_goes middle' item symbol (hitems item hholds) hnext
      refine ⟨number', hleads'.tail hgoes', h.forall_holds_goes hgoes ?_ (hcarries.called number')⟩
      intro item hholds hnext
      exact hcarries.advance middle' item symbol number' (hitems item hholds) hnext hgoes'

/-- A map from the items of one system to those of another that agrees with what the automata do
with items. -/
structure ItemMap (system system' : ItemSystem) (f : Item → Item) : Prop where
  /-- The symbol after the dot is kept. -/
  next?_eq : ∀ item, (f item).next? = item.next?
  /-- Advances go to advances. -/
  advance_eq : ∀ item, f item.advance = (f item).advance
  /-- The item of the added start symbol goes to that of the other system. -/
  start_eq : f (.dotted system.grammar.augmentedProduction.toRule 0 system.startLookahead) =
    .dotted system'.grammar.augmentedProduction.toRule 0 system'.startLookahead
  /-- Calls go to calls. -/
  exists_called : ∀ item, ∀ called ∈ system.calledFor item,
    ∃ other ∈ system'.calledFor (f item), other.toItem = f called.toItem

/-- The images of items are held along paths. -/
theorem ItemMap.carries {system system' : ItemSystem} {states' : List State} {f : Item → Item}
    (hmap : ItemMap system system' f) (h' : Linked system' states'.length [] states') :
    Carries system states' fun number item => Holds states' number (f item) where
  start := by
    rw [hmap.start_eq]
    exact h'.holds_start
  called := by
    intro number item hholds called hcalled
    obtain ⟨other, hother, heq⟩ := hmap.exists_called item called hcalled
    rw [← heq]
    exact h'.holds_called hholds hother
  exists_goes := by
    intro number item symbol hholds hnext
    obtain ⟨next, hgoes, -⟩ := h'.exists_goes hholds ((hmap.next?_eq item).trans hnext)
    exact ⟨next, hgoes⟩
  advance := by
    intro number item symbol next hholds hnext hgoes
    obtain ⟨next', hgoes', hadvanced⟩ := h'.exists_goes hholds ((hmap.next?_eq item).trans hnext)
    rw [h'.goes_unique hgoes hgoes', hmap.advance_eq]
    exact hadvanced

/-- Symbols that lead somewhere in the one automaton do so in the other, and the items that are held
there go to items that are held there. -/
theorem exists_leads_map {system system' : ItemSystem} {states states' : List State}
    {f : Item → Item} (h : Linked system states.length [] states)
    (h' : Linked system' states'.length [] states') (hmap : ItemMap system system' f)
    {symbols : List Symbol} {number : Int} (hleads : Leads states 0 symbols number) :
    ∃ number', Leads states' 0 symbols number' ∧
      ∀ item, Holds states number item → Holds states' number' (f item) :=
  exists_leads_of_carries h (hmap.carries h') hleads

end TableParsing.Collection
