import Mathlib
import TableParsing.SymbolSet

/-!
# Sizes of symbol sets

A union is the first set again iff it adds no member (`union_eq_left_iff`), and otherwise it is
larger (`size_lt_size_union`). A set of members of a list is no larger than the list
(`size_le_length`).
-/

namespace TableParsing.SymbolSet

variable {s t : SymbolSet}

/-- A set that adds no member to another leaves it as it is. -/
theorem union_eq_left_iff : s ∪ t = s ↔ ∀ x ∈ t, x ∈ s := by
  constructor
  · intro h x hx
    rw [← h]
    exact mem_union.mpr (Or.inr hx)
  · intro h
    apply ext_mem
    intro x
    rw [mem_union]
    exact ⟨fun hx => hx.elim id (h x), Or.inl⟩

/-- A set that is not empty has a member. -/
theorem exists_mem_of_ne_empty (h : s ≠ .empty) : ∃ x, x ∈ s := by
  by_contra hnone
  apply h
  apply ext_mem
  intro x
  exact iff_of_false (fun hx => hnone ⟨x, hx⟩) (not_mem_empty x)

/-- A set is no larger than a list that has its members. -/
theorem size_le_length {xs : List Symbol} (h : ∀ x ∈ s, x ∈ xs) : s.size ≤ xs.length :=
  (List.subperm_of_subset s.nodup_toList h).length_le

/-- A union that is not the first set has more members. -/
theorem size_lt_size_union (h : s ∪ t ≠ s) : s.size < (s ∪ t).size := by
  rw [Ne, union_eq_left_iff, not_forall] at h
  obtain ⟨x, hx⟩ := h
  obtain ⟨hxt, hxs⟩ := Classical.not_imp.mp hx
  have hnodup : (x :: s.toList).Nodup := List.nodup_cons.mpr ⟨hxs, s.nodup_toList⟩
  have hsub : (x :: s.toList) ⊆ (s ∪ t).toList := by
    intro y hy
    rcases List.mem_cons.mp hy with rfl | hy
    · exact mem_union.mpr (Or.inr hxt)
    · exact mem_union.mpr (Or.inl hy)
  exact (List.subperm_of_subset hnodup hsub).length_le

end TableParsing.SymbolSet
