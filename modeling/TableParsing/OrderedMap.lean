/-!
# Maps that remember insertion order

A finite map whose entries are listed in the order in which their keys were first inserted.
Inserting under a key that is already there replaces the value and keeps the place. No key is
listed twice, and the type says so.

Look-up after an insertion is `get?_insert`, and `keys_insert` gives the order of the keys.
-/

namespace TableParsing

/-- A finite map with its keys in the order of their first insertion. -/
structure OrderedMap (α β : Type) where
  /-- The entries in insertion order. -/
  entries : List (α × β)
  /-- No key is listed twice. -/
  nodup : (entries.map Prod.fst).Nodup
deriving DecidableEq

namespace OrderedMap

variable {α β : Type}

/-- The map without entries. -/
def empty : OrderedMap α β := ⟨[], List.nodup_nil⟩

/-- The keys in insertion order. -/
def keys (m : OrderedMap α β) : List α := m.entries.map Prod.fst

/-- The values in the order of their keys. -/
def values (m : OrderedMap α β) : List β := m.entries.map Prod.snd

variable [DecidableEq α]

/-- The first value listed under a key. -/
def lookup (key : α) : List (α × β) → Option β
  | [] => none
  | e :: es => if e.1 = key then some e.2 else lookup key es

/-- The value stored under a key. -/
def get? (m : OrderedMap α β) (key : α) : Option β := lookup key m.entries

/-- Whether a key is in the map. -/
def contains (m : OrderedMap α β) (key : α) : Bool := (m.get? key).isSome

/-- Replaces the value under a key at its place, or adds the entry at the end. -/
def put (key : α) (value : β) : List (α × β) → List (α × β)
  | [] => [(key, value)]
  | e :: es => if e.1 = key then (key, value) :: es else e :: put key value es

theorem map_fst_put (key : α) (value : β) :
    (es : List (α × β)) → (put key value es).map Prod.fst =
      if key ∈ es.map Prod.fst then es.map Prod.fst else es.map Prod.fst ++ [key]
  | [] => by simp [put]
  | e :: es => by
    by_cases h : e.1 = key
    · simp [put, h]
    · have h' : ¬ key = e.1 := fun hk => h hk.symm
      by_cases hm : key ∈ es.map Prod.fst
      · simp only [put, h, if_false, List.map_cons, map_fst_put key value es, if_pos hm]
        rw [if_pos (List.mem_cons_of_mem _ hm)]
      · simp only [put, h, if_false, List.map_cons, map_fst_put key value es, if_neg hm]
        rw [if_neg (by simpa [h'] using hm)]
        rfl

theorem nodup_put (key : α) (value : β) (es : List (α × β)) (h : (es.map Prod.fst).Nodup) :
    ((put key value es).map Prod.fst).Nodup := by
  rw [map_fst_put]
  split
  · exact h
  · next hk =>
    refine List.nodup_append.mpr ⟨h, List.pairwise_singleton _ _, ?_⟩
    rintro a ha b hb rfl
    rw [List.mem_singleton] at hb
    exact hk (hb ▸ ha)

/-- Stores a value under a key. -/
def insert (m : OrderedMap α β) (key : α) (value : β) : OrderedMap α β :=
  ⟨put key value m.entries, nodup_put key value m.entries m.nodup⟩

/-- Stores the entries of a list one after the other. -/
def ofList (es : List (α × β)) : OrderedMap α β :=
  es.foldl (fun m e => m.insert e.1 e.2) empty

/-- The map without one key. -/
def erase (m : OrderedMap α β) (key : α) : OrderedMap α β :=
  ⟨m.entries.filter fun e => e.1 ≠ key,
    m.nodup.sublist (List.filter_sublist.map _)⟩

/-! ## Look-up and order -/

@[simp] theorem get?_empty (key : α) : (empty : OrderedMap α β).get? key = none := rfl

theorem lookup_put (key key' : α) (value : β) :
    (es : List (α × β)) →
      lookup key' (put key value es) = if key = key' then some value else lookup key' es
  | [] => by simp [put, lookup]
  | e :: es => by
    by_cases h : e.1 = key
    · by_cases hk : key = key'
      · simp [put, h, lookup, hk]
      · simp [put, h, lookup, hk]
    · by_cases hk : key = key'
      · subst hk
        simp [put, h, lookup, lookup_put key key value es]
      · rw [put, if_neg h, lookup, lookup, lookup_put key key' value es, if_neg hk, if_neg hk]

/-- An insertion changes the value under its key and no other. -/
theorem get?_insert (m : OrderedMap α β) (key key' : α) (value : β) :
    (m.insert key value).get? key' = if key = key' then some value else m.get? key' :=
  lookup_put key key' value m.entries

/-- A new key comes last, and a known one keeps its place. -/
theorem keys_insert (m : OrderedMap α β) (key : α) (value : β) :
    (m.insert key value).keys = if key ∈ m.keys then m.keys else m.keys ++ [key] :=
  map_fst_put key value m.entries

theorem lookup_isSome_iff (key : α) :
    (es : List (α × β)) → ((lookup key es).isSome ↔ key ∈ es.map Prod.fst)
  | [] => by simp [lookup]
  | e :: es => by
    by_cases h : e.1 = key
    · simp [lookup, h]
    · have h' : ¬ key = e.1 := fun hk => h hk.symm
      simp only [lookup, h, if_false, List.map_cons, List.mem_cons, h', false_or]
      exact lookup_isSome_iff key es

/-- The keys are exactly what look-up finds. -/
theorem mem_keys_iff (m : OrderedMap α β) (key : α) : key ∈ m.keys ↔ (m.get? key).isSome :=
  (lookup_isSome_iff key m.entries).symm

end OrderedMap

end TableParsing
