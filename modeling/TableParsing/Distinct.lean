/-!
# First occurrences

Lists without repetitions. Of several elements with the same key the first one is kept, at its
place.
-/

namespace TableParsing

variable {α κ : Type} [DecidableEq κ]

/-- The elements whose key no earlier element has. -/
def distinctBy (key : α → κ) : List α → List α
  | [] => []
  | x :: xs => x :: (distinctBy key xs).filter fun y => key y ≠ key x

/-- The elements in the order of their first occurrence, once each. -/
def distinct (xs : List κ) : List κ := distinctBy id xs

/-- The kept keys are the keys of the list. -/
theorem mem_map_distinctBy (key : α → κ) (k : κ) :
    (xs : List α) → (k ∈ (distinctBy key xs).map key ↔ k ∈ xs.map key)
  | [] => by simp [distinctBy]
  | x :: xs => by
    have ih := mem_map_distinctBy key k xs
    simp only [List.mem_map] at ih
    simp only [distinctBy, List.map_cons, List.mem_cons, List.mem_map, List.mem_filter,
      decide_eq_true_eq]
    constructor
    · rintro (rfl | ⟨y, ⟨hy, _⟩, rfl⟩)
      · exact Or.inl rfl
      · exact Or.inr (ih.mp ⟨y, hy, rfl⟩)
    · rintro (rfl | h)
      · exact Or.inl rfl
      · obtain ⟨y, hy, hk⟩ := ih.mpr h
        by_cases hx : key y = key x
        · exact Or.inl (hk ▸ hx)
        · exact Or.inr ⟨y, ⟨hy, hx⟩, hk⟩

/-- No two kept elements have the same key. -/
theorem nodup_map_distinctBy (key : α → κ) :
    (xs : List α) → ((distinctBy key xs).map key).Nodup
  | [] => List.nodup_nil
  | x :: xs => by
    rw [distinctBy, List.map_cons, List.nodup_cons]
    refine ⟨?_, (nodup_map_distinctBy key xs).sublist (List.filter_sublist.map _)⟩
    simp only [List.mem_map, List.mem_filter, decide_eq_true_eq]
    rintro ⟨y, ⟨_, hne⟩, he⟩
    exact hne he

@[simp] theorem mem_distinct {x : κ} {xs : List κ} : x ∈ distinct xs ↔ x ∈ xs := by
  have h := mem_map_distinctBy (α := κ) id x xs
  rwa [List.map_id, List.map_id] at h

theorem nodup_distinct (xs : List κ) : (distinct xs).Nodup := by
  have h := nodup_map_distinctBy (α := κ) id xs
  rwa [List.map_id] at h

end TableParsing
