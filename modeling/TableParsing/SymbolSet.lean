import TableParsing.Symbol

/-!
# Sets of symbols

A finite set of symbols, held as the list of its members in increasing order of their code
points. The order is part of the type, so a set has one representation and two sets with the same
members are equal (`SymbolSet.ext_mem`). Each operation has a lemma that says what its members
are.
-/

namespace TableParsing

/-- A finite set of symbols. -/
structure SymbolSet where
  /-- The members in increasing order. -/
  toList : List Symbol
  /-- No member occurs twice, and smaller ones come first. -/
  sorted : toList.Pairwise (· < ·)
deriving DecidableEq

namespace SymbolSet

instance : Membership Symbol SymbolSet where
  mem s x := x ∈ s.toList

instance (x : Symbol) (s : SymbolSet) : Decidable (x ∈ s) :=
  inferInstanceAs (Decidable (x ∈ s.toList))

theorem mem_def {x : Symbol} {s : SymbolSet} : x ∈ s ↔ x ∈ s.toList := Iff.rfl

/-- The empty set. -/
def empty : SymbolSet := ⟨[], List.Pairwise.nil⟩

/-- The set with one member. -/
def singleton (x : Symbol) : SymbolSet := ⟨[x], List.pairwise_singleton _ _⟩

/-- Inserts a symbol at its place in an increasing list. -/
def insertSorted (x : Symbol) : List Symbol → List Symbol
  | [] => [x]
  | y :: ys => if x < y then x :: y :: ys else if x = y then y :: ys else y :: insertSorted x ys

theorem mem_insertSorted {x z : Symbol} :
    (ys : List Symbol) → (z ∈ insertSorted x ys ↔ z = x ∨ z ∈ ys)
  | [] => by simp [insertSorted]
  | y :: ys => by
    simp only [insertSorted]
    split
    · simp
    · split
      · next h => subst h; simp
      · simp only [List.mem_cons, mem_insertSorted ys]
        constructor
        · rintro (h | h | h) <;> simp [h]
        · rintro (h | h | h) <;> simp [h]

theorem sorted_insertSorted {x : Symbol} :
    (ys : List Symbol) → ys.Pairwise (· < ·) → (insertSorted x ys).Pairwise (· < ·)
  | [], _ => List.pairwise_singleton _ _
  | y :: ys, h => by
    have hy := List.pairwise_cons.mp h
    simp only [insertSorted]
    split
    · next hxy =>
      refine List.pairwise_cons.mpr ⟨fun z hz => ?_, h⟩
      rcases List.mem_cons.mp hz with rfl | hz
      · exact hxy
      · exact String.lt_trans hxy (hy.1 z hz)
    · next hxy =>
      split
      · exact h
      · next hne =>
        refine List.pairwise_cons.mpr ⟨fun z hz => ?_, sorted_insertSorted ys hy.2⟩
        rcases (mem_insertSorted ys).mp hz with rfl | hz
        · exact String.not_le.mp fun hle => hne (String.le_antisymm hle (String.not_lt.mp hxy))
        · exact hy.1 z hz

/-- The set with one more member. -/
def insert (x : Symbol) (s : SymbolSet) : SymbolSet :=
  ⟨insertSorted x s.toList, sorted_insertSorted s.toList s.sorted⟩

/-- The set of the members of a list. -/
def ofList (xs : List Symbol) : SymbolSet := xs.foldr insert empty

/-- The set of the members of either set. -/
def union (s t : SymbolSet) : SymbolSet := t.toList.foldr insert s

instance : Union SymbolSet := ⟨union⟩

/-- The set without one symbol. -/
def erase (s : SymbolSet) (x : Symbol) : SymbolSet :=
  ⟨s.toList.filter (· ≠ x), s.sorted.filter _⟩

/-- The number of members. -/
def size (s : SymbolSet) : Nat := s.toList.length

/-! ## Members of the results -/

@[simp] theorem not_mem_empty (x : Symbol) : ¬ x ∈ empty := by simp [mem_def, empty]

@[simp] theorem mem_singleton {x y : Symbol} : x ∈ singleton y ↔ x = y := by
  simp [mem_def, singleton]

@[simp] theorem mem_insert {x y : Symbol} {s : SymbolSet} : x ∈ s.insert y ↔ x = y ∨ x ∈ s :=
  mem_insertSorted s.toList

theorem mem_foldr_insert {x : Symbol} {s : SymbolSet} :
    (xs : List Symbol) → (x ∈ xs.foldr insert s ↔ x ∈ xs ∨ x ∈ s)
  | [] => by simp
  | y :: ys => by simp [mem_foldr_insert ys, or_assoc]

@[simp] theorem mem_ofList {x : Symbol} {xs : List Symbol} : x ∈ ofList xs ↔ x ∈ xs := by
  simp [ofList, mem_foldr_insert]

@[simp] theorem mem_union {x : Symbol} {s t : SymbolSet} : x ∈ s ∪ t ↔ x ∈ s ∨ x ∈ t := by
  show x ∈ t.toList.foldr insert s ↔ _
  rw [mem_foldr_insert, or_comm, mem_def (s := t)]

@[simp] theorem mem_erase {x y : Symbol} {s : SymbolSet} : x ∈ s.erase y ↔ x ∈ s ∧ x ≠ y := by
  simp [mem_def, erase]

/-- Increasing lists with the same members are equal. -/
theorem eq_of_sorted_of_mem_iff :
    (xs ys : List Symbol) → xs.Pairwise (· < ·) → ys.Pairwise (· < ·) →
      (∀ z, z ∈ xs ↔ z ∈ ys) → xs = ys
  | [], [], _, _, _ => rfl
  | [], y :: _, _, _, h => absurd ((h y).mpr (by simp)) (by simp)
  | x :: _, [], _, _, h => absurd ((h x).mp (by simp)) (by simp)
  | x :: xs, y :: ys, hx, hy, h => by
    have hx' := List.pairwise_cons.mp hx
    have hy' := List.pairwise_cons.mp hy
    have hxy : x = y := by
      rcases List.mem_cons.mp ((h x).mp (by simp)) with e | hmem
      · exact e
      · rcases List.mem_cons.mp ((h y).mpr (by simp)) with e | hmem'
        · exact e.symm
        · exact absurd (hx'.1 y hmem') (String.lt_asymm (hy'.1 x hmem))
    subst hxy
    refine congrArg (x :: ·) (eq_of_sorted_of_mem_iff xs ys hx'.2 hy'.2 fun z => ?_)
    constructor
    · intro hz
      rcases List.mem_cons.mp ((h z).mp (List.mem_cons_of_mem _ hz)) with rfl | hz'
      · exact absurd (hx'.1 z hz) (String.lt_irrefl z)
      · exact hz'
    · intro hz
      rcases List.mem_cons.mp ((h z).mpr (List.mem_cons_of_mem _ hz)) with rfl | hz'
      · exact absurd (hy'.1 z hz) (String.lt_irrefl z)
      · exact hz'

/-- Sets with the same members are equal. -/
theorem ext_mem {s t : SymbolSet} (h : ∀ x, x ∈ s ↔ x ∈ t) : s = t := by
  obtain ⟨xs, hx⟩ := s
  obtain ⟨ys, hy⟩ := t
  obtain rfl := eq_of_sorted_of_mem_iff xs ys hx hy h
  rfl

/-- The members are listed once each. -/
theorem nodup_toList (s : SymbolSet) : s.toList.Nodup := by
  refine List.Pairwise.imp (fun {a b} (h : a < b) => ?_) s.sorted
  rintro rfl
  exact String.lt_irrefl a h

end SymbolSet

end TableParsing
