import Mathlib
import TableParsing.OrderedMap

/-!
# Look-up in ordered maps

Look-up finds exactly the entries that are listed (`get?_eq_some_iff`), since no key is listed
twice. A map made from a list holds, under each key, what the list has last for it (`get?_ofList`);
`lookup_append` and `lookup_map` compute such look-ups where the list is put together from parts.
-/

namespace TableParsing.OrderedMap

variable {α β : Type} [DecidableEq α]

/-- The first of two lists of entries that has a key decides. -/
theorem lookup_append (key : α) :
    (xs ys : List (α × β)) → lookup key (xs ++ ys) = (lookup key xs).or (lookup key ys)
  | [], ys => rfl
  | x :: xs, ys => by
      rw [List.cons_append, lookup, lookup, lookup_append key xs ys]
      split <;> rfl

/-- Look-up among keys that a function gives the values of. -/
theorem lookup_map (f : α → β) (key : α) :
    (keys : List α) →
      lookup key (keys.map fun k => (k, f k)) = if key ∈ keys then some (f key) else none
  | [] => rfl
  | k :: keys => by
      rw [List.map_cons, lookup, lookup_map f key keys]
      by_cases h : k = key
      · subst h
        rw [if_pos rfl, if_pos List.mem_cons_self]
      · rw [if_neg h]
        simp only [List.mem_cons, Ne.symm h, false_or]

/-- An entry that look-up finds is listed. -/
theorem mem_of_lookup {key : α} {value : β} :
    (es : List (α × β)) → lookup key es = some value → (key, value) ∈ es
  | [], h => by cases h
  | e :: es, h => by
      rw [lookup] at h
      split at h
      · next he =>
          cases h
          exact he ▸ List.mem_cons_self
      · exact List.mem_cons_of_mem _ (mem_of_lookup es h)

/-- Look-up finds the entries of a list without repeated keys. -/
theorem lookup_of_mem {key : α} {value : β} :
    (es : List (α × β)) → (es.map Prod.fst).Nodup → (key, value) ∈ es →
      lookup key es = some value
  | [], _, h => absurd h List.not_mem_nil
  | e :: es, hn, h => by
      rw [List.map_cons, List.nodup_cons] at hn
      rw [lookup]
      rcases List.mem_cons.mp h with rfl | h
      · rw [if_pos rfl]
      · have hne : e.1 ≠ key := by
          rintro rfl
          exact hn.1 (List.mem_map.mpr ⟨_, h, rfl⟩)
        rw [if_neg hne]
        exact lookup_of_mem es hn.2 h

/-- Look-up finds exactly the entries of a map. -/
theorem get?_eq_some_iff {m : OrderedMap α β} {key : α} {value : β} :
    m.get? key = some value ↔ (key, value) ∈ m.entries :=
  ⟨mem_of_lookup m.entries, lookup_of_mem m.entries m.nodup⟩

/-- The entry of a new key comes last. -/
theorem put_of_not_mem {key : α} (value : β) :
    (es : List (α × β)) → key ∉ es.map Prod.fst → put key value es = es ++ [(key, value)]
  | [], _ => rfl
  | e :: es, h => by
      rw [List.map_cons, List.mem_cons, not_or] at h
      rw [put, if_neg (Ne.symm h.1), put_of_not_mem value es h.2, List.cons_append]

/-- Storing under a new key adds an entry behind the others. -/
theorem entries_insert (m : OrderedMap α β) {key : α} (h : key ∉ m.keys) (value : β) :
    (m.insert key value).entries = m.entries ++ [(key, value)] :=
  put_of_not_mem value m.entries h

/-- The value under a new key comes last. -/
theorem values_insert (m : OrderedMap α β) {key : α} (h : key ∉ m.keys) (value : β) :
    (m.insert key value).values = m.values ++ [value] := by
  rw [values, entries_insert m h, List.map_append]
  rfl

/-- Entries with new keys are added in their order. -/
theorem entries_foldl_insert :
    (es : List (α × β)) → (m : OrderedMap α β) → (m.keys ++ es.map Prod.fst).Nodup →
      (es.foldl (fun m e => m.insert e.1 e.2) m).entries = m.entries ++ es
  | [], m, _ => (List.append_nil m.entries).symm
  | e :: es, m, h => by
      rw [List.map_cons] at h
      have hnew : e.1 ∉ m.keys := fun hmem =>
        List.disjoint_of_nodup_append h hmem List.mem_cons_self
      have hrest : ((m.insert e.1 e.2).keys ++ es.map Prod.fst).Nodup := by
        rwa [keys_insert, if_neg hnew, List.append_assoc]
      rw [List.foldl_cons, entries_foldl_insert es _ hrest, entries_insert m hnew,
        List.append_assoc]
      rfl

/-- A map made from a list without repeated keys has the entries of the list. -/
theorem entries_ofList {es : List (α × β)} (h : (es.map Prod.fst).Nodup) :
    (ofList es).entries = es :=
  entries_foldl_insert es empty h

/-- Entries stored one after the other hide the earlier ones under their keys. -/
theorem get?_foldl_insert (key : α) :
    (es : List (α × β)) → (m : OrderedMap α β) →
      (es.foldl (fun m e => m.insert e.1 e.2) m).get? key = (lookup key es.reverse).or (m.get? key)
  | [], m => rfl
  | e :: es, m => by
      rw [List.foldl_cons, get?_foldl_insert key es, get?_insert, List.reverse_cons, lookup_append,
        Option.or_assoc]
      congr 1
      rw [lookup]
      split <;> rfl

/-- A map made from a list holds the last entry of each key. -/
theorem get?_ofList (key : α) (es : List (α × β)) :
    (ofList es).get? key = lookup key es.reverse := by
  rw [ofList, get?_foldl_insert, get?_empty, Option.or_none]

end TableParsing.OrderedMap
