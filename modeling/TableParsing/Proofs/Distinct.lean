import Mathlib
import TableParsing.Distinct

/-!
# Laws of first occurrences

What is kept is a part of the list in its order (`distinctBy_sublist`), and the first occurrences in
a longer list are those in the shorter one and, if the new element is not among them, that element
(`distinct_append_singleton`). In a list in some order, what is kept comes first among the elements
with its key (`rel_of_mem_distinctBy`). The order of the first occurrences is that of the whole
list, also if only some of its elements are listed (`FirstOccurrences`).
-/

namespace TableParsing

variable {α κ : Type} [DecidableEq κ]

/-- The kept elements are some of the list, in its order. -/
theorem distinctBy_sublist (key : α → κ) : (xs : List α) → (distinctBy key xs).Sublist xs
  | [] => .slnil
  | x :: xs => by
      rw [distinctBy]
      exact (List.filter_sublist.trans (distinctBy_sublist key xs)).cons_cons x

/-- If no two elements have the same key, all are kept. -/
theorem distinctBy_eq_self {key : α → κ} :
    (xs : List α) → (xs.map key).Nodup → distinctBy key xs = xs
  | [], _ => rfl
  | x :: xs, h => by
      rw [List.map_cons, List.nodup_cons] at h
      have hall : xs.filter (fun y => key y ≠ key x) = xs := by
        rw [List.filter_eq_self]
        intro y hy
        have hne : key y ≠ key x := fun heq => h.1 (heq ▸ List.mem_map_of_mem hy)
        exact decide_eq_true hne
      rw [distinctBy, distinctBy_eq_self xs h.2, hall]

/-- The first element is kept, and no other one that is equal to it. -/
theorem distinct_cons (x : κ) (xs : List κ) :
    distinct (x :: xs) = x :: (distinct xs).filter fun y => y ≠ x := rfl

/-- One more element is kept if it has not occurred. -/
theorem distinct_append_singleton (x : κ) :
    (xs : List κ) → distinct (xs ++ [x]) = if x ∈ xs then distinct xs else distinct xs ++ [x]
  | [] => rfl
  | y :: ys => by
      rw [List.cons_append, distinct_cons, distinct_append_singleton x ys, distinct_cons]
      by_cases hys : x ∈ ys
      · rw [if_pos hys, if_pos (List.mem_cons_of_mem _ hys)]
      · rw [if_neg hys, List.filter_append]
        by_cases hy : x = y
        · simp [hy]
        · simp [hy, hys]

/-- Where elements are related to the later ones with their key, a kept element is related to all
elements with its key. -/
theorem rel_of_mem_distinctBy {key : α → κ} {R : α → α → Prop} (hrefl : ∀ x, R x x) {x : α} :
    (xs : List α) → xs.Pairwise (fun y z => key y = key z → R y z) → x ∈ distinctBy key xs →
      ∀ y ∈ xs, key x = key y → R x y
  | z :: zs, hpairwise, hx, y, hy, hkey => by
      obtain ⟨hfirst, hrest⟩ := List.pairwise_cons.mp hpairwise
      rcases List.mem_cons.mp hx with rfl | hx
      · rcases List.mem_cons.mp hy with rfl | hy
        · exact hrefl y
        · exact hfirst y hy hkey
      · obtain ⟨hx, hne⟩ := List.mem_filter.mp hx
        rcases List.mem_cons.mp hy with rfl | hy
        · exact absurd hkey (of_decide_eq_true hne)
        · exact rel_of_mem_distinctBy hrefl zs hrest hx y hy hkey

/-- The second list has the elements of the first one with a property, once each and in the order of
their first occurrences. -/
structure FirstOccurrences (P : κ → Prop) (xs ys : List κ) : Prop where
  /-- An element is listed iff it occurs and has the property. -/
  mem_iff : ∀ x, x ∈ ys ↔ x ∈ xs ∧ P x
  /-- No element is listed twice. -/
  nodup : ys.Nodup
  /-- What is listed before another element occurs before it. -/
  ordered : ys.Pairwise fun x y => xs.idxOf x < xs.idxOf y

/-- The first occurrences of some elements are in the order of the whole list. -/
theorem pairwise_idxOf_distinct_filter (p : κ → Bool) :
    (xs : List κ) → (distinct (xs.filter p)).Pairwise fun x y => xs.idxOf x < xs.idxOf y
  | [] => List.Pairwise.nil
  | x :: xs => by
      have ih := pairwise_idxOf_distinct_filter p xs
      have hlater : ∀ y z, y ≠ x → z ≠ x → xs.idxOf y < xs.idxOf z →
          (x :: xs).idxOf y < (x :: xs).idxOf z := by
        intro y z hy hz hlt
        rw [List.idxOf_cons_ne xs hy.symm, List.idxOf_cons_ne xs hz.symm]
        exact Nat.succ_lt_succ hlt
      by_cases hx : p x = true
      · rw [List.filter_cons_of_pos hx, distinct_cons, List.pairwise_cons]
        have hne : ∀ y ∈ (distinct (xs.filter p)).filter fun y => y ≠ x, y ≠ x := by
          intro y hy
          simpa using (List.mem_filter.mp hy).2
        constructor
        · intro y hy
          rw [List.idxOf_cons_self, List.idxOf_cons_ne xs (hne y hy).symm]
          exact Nat.succ_pos _
        · exact (ih.filter _).imp_of_mem fun hy hz hlt => hlater _ _ (hne _ hy) (hne _ hz) hlt
      · rw [List.filter_cons_of_neg hx]
        have hne : ∀ y ∈ distinct (xs.filter p), y ≠ x := by
          rintro y hy rfl
          exact hx (List.mem_filter.mp (mem_distinct.mp hy)).2
        exact ih.imp_of_mem fun hy hz hlt => hlater _ _ (hne _ hy) (hne _ hz) hlt

/-- The elements that pass a test, once each, are first occurrences. -/
theorem firstOccurrences_filter {P : κ → Prop} {p : κ → Bool} (hp : ∀ x, p x = true ↔ P x)
    (xs : List κ) : FirstOccurrences P xs (distinct (xs.filter p)) where
  mem_iff x := by rw [mem_distinct, List.mem_filter, hp]
  nodup := nodup_distinct _
  ordered := pairwise_idxOf_distinct_filter p xs

end TableParsing
