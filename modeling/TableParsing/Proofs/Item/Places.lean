import TableParsing.Proofs.Grammar.Augmented
import TableParsing.Item.Basic

/-!
# Items of productions

The items of an automaton are rules with a dot at a place in their body (`Item.dotted`). For these
the symbol after the dot, the symbols behind it and the item after it are list operations on the
body, and an item is complete iff its dot is at the end.
-/

namespace TableParsing

namespace Item

/-- The symbol after a dot that is counted from the front. -/
theorem next?_of_nonneg {item : Item} (h : 0 ≤ item.dot) :
    item.next? = item.rhs[item.dot.toNat]? := by
  have hplaced : item.isPlaced = true := decide_eq_true (by omega)
  rw [next?, if_pos hplaced, before, if_neg (Int.not_lt.mpr h)]

/-- The symbols behind the one after a dot that is counted from the front. -/
theorem trailer_of_nonneg {item : Item} (h : 0 ≤ item.dot) :
    item.trailer = item.rhs.drop (item.dot.toNat + 1) := by
  have hdot : ¬ item.dot + 1 < 0 := by omega
  have hnext : (item.dot + 1).toNat = item.dot.toNat + 1 := by omega
  rw [trailer, before, advance, if_neg hdot, hnext]

/-- A rule with the dot after a number of the symbols of its body. -/
def dotted (r : Rule) (place : Nat) (lookahead : Option Symbol) : Item :=
  ⟨r.lhs, r.body, place, lookahead⟩

variable {r : Rule} {place : Nat} {lookahead : Option Symbol}

@[simp] theorem next?_dotted : (dotted r place lookahead).next? = r.body[place]? :=
  next?_of_nonneg (Int.natCast_nonneg place)

/-- The symbol after the dot is the first one behind it. -/
theorem next?_dotted_of_drop {s : Symbol} {after : List Symbol}
    (h : r.body.drop place = s :: after) : (dotted r place lookahead).next? = some s := by
  rw [next?_dotted, ← List.head?_drop, h, List.head?_cons]

/-- Behind the dot is first the symbol after it. -/
theorem drop_eq_of_next? {s : Symbol} (h : (dotted r place lookahead).next? = some s) :
    r.body.drop place = s :: r.body.drop (place + 1) := by
  rw [next?_dotted] at h
  obtain ⟨hplace, rfl⟩ := List.getElem?_eq_some_iff.mp h
  exact List.drop_eq_getElem_cons hplace

/-- The body splits at the symbol after the dot. -/
theorem body_eq_of_next? {s : Symbol} (h : (dotted r place lookahead).next? = some s) :
    r.body = r.body.take place ++ s :: r.body.drop (place + 1) := by
  rw [← drop_eq_of_next? h, List.take_append_drop]

@[simp] theorem trailer_dotted : (dotted r place lookahead).trailer = r.body.drop (place + 1) :=
  trailer_of_nonneg (Int.natCast_nonneg place)

@[simp] theorem advance_dotted :
    (dotted r place lookahead).advance = dotted r (place + 1) lookahead := rfl

/-- An item is complete iff its dot is at the end of the body. -/
theorem isComplete_dotted :
    (dotted r place lookahead).isComplete = true ↔ r.body.length ≤ place := by
  rw [isComplete, decide_eq_true_eq]
  exact Int.ofNat_le

/-- An item determines its rule up to empty markers, and its place and lookahead. -/
theorem dotted_inj {r' : Rule} {place' : Nat} {lookahead' : Option Symbol} :
    dotted r place lookahead = dotted r' place' lookahead' ↔
      r.lhs = r'.lhs ∧ r.body = r'.body ∧ place = place' ∧ lookahead = lookahead' := by
  rw [dotted, dotted, Item.mk.injEq, Int.natCast_inj]

end Item

namespace NumberedItem

/-- A production with the dot after a number of the symbols of its body. -/
def dotted (p : Production) (place : Nat) (lookahead : Option Symbol) : NumberedItem :=
  ⟨.dotted p.toRule place lookahead, p.index⟩

/-- The first item of a production has the dot before the body. -/
theorem start_eq_dotted (p : Production) (lookahead : Option Symbol) :
    start p lookahead = dotted p 0 lookahead := rfl

/-- An item is in a list iff it is the same as one of the list. -/
theorem isIn_iff {item : NumberedItem} {items : List NumberedItem} :
    item.isIn items = true ↔ item.toItem ∈ items.map toItem := by
  simp [isIn]

/-- It does not matter which list comes first. -/
theorem sameItems_comm (xs ys : List NumberedItem) : sameItems xs ys = sameItems ys xs :=
  Bool.and_comm _ _

/-- Lists hold the same items iff each item of one is the same as one of the other. -/
theorem sameItems_iff {xs ys : List NumberedItem} :
    sameItems xs ys = true ↔ ∀ item, item ∈ xs.map toItem ↔ item ∈ ys.map toItem := by
  simp only [sameItems, Bool.and_eq_true, List.all_eq_true, isIn_iff, List.mem_map]
  constructor
  · rintro ⟨hxy, hyx⟩ item
    constructor
    · rintro ⟨x, hx, rfl⟩
      exact hxy x hx
    · rintro ⟨y, hy, rfl⟩
      exact hyx y hy
  · intro h
    exact ⟨fun x hx => (h x.toItem).mp ⟨x, hx, rfl⟩, fun y hy => (h y.toItem).mpr ⟨y, hy, rfl⟩⟩

/-- The items of a list as a set, whatever their numbers. -/
def itemSet (items : List NumberedItem) : Finset Item := (items.map toItem).toFinset

/-- Lists hold the same items iff their sets are equal. -/
theorem itemSet_eq_iff {xs ys : List NumberedItem} :
    itemSet xs = itemSet ys ↔ sameItems xs ys = true := by
  rw [sameItems_iff, Finset.ext_iff]
  simp [itemSet]

/-- Insertion at its place adds one item. -/
theorem insertSorted_perm (item : NumberedItem) :
    (items : List NumberedItem) → (insertSorted item items).Perm (item :: items)
  | [] => .refl _
  | other :: rest => by
      unfold insertSorted
      split
      · exact .refl _
      · exact ((insertSorted_perm item rest).cons other).trans (.swap item other rest)

/-- Sorting keeps the items. -/
theorem sort_perm : (items : List NumberedItem) → (sort items).Perm items
  | [] => .refl _
  | item :: items => (insertSorted_perm item _).trans ((sort_perm items).cons item)

end NumberedItem

end TableParsing
