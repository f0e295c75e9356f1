import TableParsing.Proofs.FirstFollow.Growth
import TableParsing.Proofs.Grammar.Symbols
import TableParsing.Proofs.OrderedMap
import TableParsing.Proofs.SymbolSet

/-!
# The range of FIRST and FOLLOW

Only terminals and the empty marker ever enter a FIRST set, and only terminals and the end marker a
FOLLOW set (`FirstInRange`, `FollowInRange`), and at all times every non-terminal has both
(`inRange_of_mem_history`). So the number of members of all sets together is at most the number of
non-terminals times one more than the number of terminals (`weight_le`), and as each enlargement
adds a member, the bound on the number of passes is large enough: the computed sets satisfy every
clause (`holds_compute_first`, `holds_compute_follow`).
-/

namespace TableParsing.FirstFollow

variable {g : Grammar}

/-- The set of a symbol in a family, empty if it has none. -/
def setOf (family : SetMap) (s : Symbol) : SymbolSet := (family.get? s).getD .empty

/-! ## The number of members -/

/-- The number of members of the sets of all non-terminals together. -/
def weight (g : Grammar) (family : SetMap) : Nat :=
  (g.nonTerminals.map fun s => (setOf family s).size).sum

/-- Storing a set changes that set and no other. -/
theorem setOf_insert (family : SetMap) (s s' : Symbol) (value : SymbolSet) :
    setOf (family.insert s value) s' = if s = s' then value else setOf family s' := by
  rw [setOf, OrderedMap.get?_insert]
  split <;> rfl

/-- A larger set makes the family larger. -/
theorem weight_insert_lt {family : SetMap} {s : Symbol} {value : SymbolSet}
    (hs : g.isNonTerminal s = true) (hlt : (setOf family s).size < value.size) :
    weight g family < weight g (family.insert s value) := by
  refine List.sum_lt_sum _ _ (fun s' _ => ?_) ⟨s, Grammar.isNonTerminal_iff.mp hs, ?_⟩
  · rw [setOf_insert]
    split
    · next h => exact h ▸ hlt.le
    · exact Nat.le_refl _
  · rwa [setOf_insert, if_pos rfl]

/-- Sets with members out of a list are no larger than the list each. -/
theorem weight_le {family : SetMap} (members : List Symbol)
    (h : ∀ s, g.isNonTerminal s = true → ∀ x ∈ setOf family s, x ∈ members) :
    weight g family ≤ g.nonTerminals.length * members.length := by
  have hsum := List.sum_le_card_nsmul (g.nonTerminals.map fun s => (setOf family s).size)
    members.length ?_
  · rwa [List.length_map, smul_eq_mul] at hsum
  · intro n hn
    obtain ⟨s, hs, rfl⟩ := List.mem_map.mp hn
    exact SymbolSet.size_le_length (h s (Grammar.isNonTerminal_iff.mpr hs))

/-! ## FIRST -/

/-- FIRST sets as they can occur: a non-terminal has a set of terminals and the empty marker, and
any other symbol begins with itself. -/
structure FirstInRange (g : Grammar) (first : SetMap) : Prop where
  /-- The members for a non-terminal. -/
  mem : ∀ s, g.isNonTerminal s = true → ∀ x ∈ setOf first s, x = epsilon ∨ x ∈ g.terminals
  /-- Every non-terminal has a set. -/
  isSome : ∀ s, g.isNonTerminal s = true → (first.get? s).isSome
  /-- Any other symbol begins with itself. -/
  other : ∀ s, g.isNonTerminal s = false → firstOf first s = .singleton s

/-- The FIRST set of a symbol with a set is that set. -/
theorem firstOf_eq_setOf {first : SetMap} {s : Symbol} (h : (first.get? s).isSome) :
    firstOf first s = setOf first s := by
  obtain ⟨value, hvalue⟩ := Option.isSome_iff_exists.mp h
  rw [firstOf, setOf, hvalue]
  rfl

/-- The set of a symbol, where it has one, is its FIRST set. -/
theorem mem_firstOf_of_mem_setOf {first : SetMap} {s x : Symbol} (hx : x ∈ setOf first s) :
    x ∈ firstOf first s := by
  unfold setOf at hx
  unfold firstOf
  cases hget : first.get? s with
  | none =>
      rw [hget] at hx
      exact absurd hx (SymbolSet.not_mem_empty x)
  | some value => rwa [hget] at hx

/-- The FIRST set of a sequence by its first symbol. -/
theorem mem_firstOfSequence_cons {first : SetMap} {x s : Symbol} {rest : List Symbol} :
    x ∈ firstOfSequence first (s :: rest) ↔
      (x ∈ firstOf first s ∧ x ≠ epsilon) ∨
        (epsilon ∈ firstOf first s ∧ x ∈ firstOfSequence first rest) := by
  rw [firstOfSequence]
  split
  · next hε => rw [SymbolSet.mem_union, SymbolSet.mem_erase, and_iff_right hε]
  · next hε =>
      simp only [hε, false_and, or_false]
      refine ⟨fun hx => ⟨hx, ?_⟩, And.left⟩
      rintro rfl
      exact hε hx

/-- The FIRST set of two sequences in a row. -/
theorem mem_firstOfSequence_append_iff {first : SetMap} {x : Symbol} {v : List Symbol} :
    (u : List Symbol) → (x ∈ firstOfSequence first (u ++ v) ↔
      (x ∈ firstOfSequence first u ∧ x ≠ epsilon) ∨
        (epsilon ∈ firstOfSequence first u ∧ x ∈ firstOfSequence first v))
  | [] => by
      have hempty : ∀ y, y ∈ firstOfSequence first [] ↔ y = epsilon := fun y =>
        SymbolSet.mem_singleton
      rw [List.nil_append, hempty, hempty, and_not_self_iff, false_or, and_iff_right rfl]
  | s :: u => by
      rw [List.cons_append, mem_firstOfSequence_cons, mem_firstOfSequence_append_iff u,
        mem_firstOfSequence_cons, mem_firstOfSequence_cons]
      tauto

/-- A sequence begins with the empty marker or with what one of its members begins with. -/
theorem mem_firstOfSequence {first : SetMap} {x : Symbol} :
    (symbols : List Symbol) → x ∈ firstOfSequence first symbols →
      x = epsilon ∨ ∃ s ∈ symbols, x ∈ firstOf first s
  | [], h => Or.inl (SymbolSet.mem_singleton.mp h)
  | s :: rest, h => by
      rcases mem_firstOfSequence_cons.mp h with ⟨hx, -⟩ | ⟨-, hx⟩
      · exact Or.inr ⟨s, List.mem_cons_self, hx⟩
      · rcases mem_firstOfSequence rest hx with hx | ⟨t, ht, hx⟩
        · exact Or.inl hx
        · exact Or.inr ⟨t, List.mem_cons_of_mem _ ht, hx⟩

namespace FirstInRange

variable {first : SetMap}

/-- What a symbol of the grammar may begin with. -/
theorem mem_firstOf (h : FirstInRange g first) {s x : Symbol}
    (hs : s = epsilon ∨ g.isNonTerminal s = true ∨ s ∈ g.terminals) (hx : x ∈ firstOf first s) :
    x = epsilon ∨ x ∈ g.terminals := by
  cases hn : g.isNonTerminal s with
  | true =>
      rw [firstOf_eq_setOf (h.isSome s hn)] at hx
      exact h.mem s hn x hx
  | false =>
      rw [h.other s hn, SymbolSet.mem_singleton] at hx
      subst hx
      rcases hs with hε | hn' | ht
      · exact Or.inl hε
      · exact absurd rfl (Grammar.ne_of_isNonTerminal hn' hn)
      · exact Or.inr ht

/-- What a sequence of symbols of the grammar may begin with. -/
theorem mem_firstOfSequence (h : FirstInRange g first) {symbols : List Symbol}
    (hsymbols : ∀ s ∈ symbols, s = epsilon ∨ g.isNonTerminal s = true ∨ s ∈ g.terminals)
    {x : Symbol} (hx : x ∈ firstOfSequence first symbols) : x = epsilon ∨ x ∈ g.terminals := by
  rcases FirstFollow.mem_firstOfSequence symbols hx with hx | ⟨s, hs, hx⟩
  · exact Or.inl hx
  · exact h.mem_firstOf (hsymbols s hs) hx

end FirstInRange

/-- The FIRST sets before any clause is used. -/
theorem get?_initial_first (g : Grammar) (s : Symbol) :
    (Sets.initial g).first.get? s =
      if s = epsilon then some (.singleton epsilon)
      else if s ∈ g.terminals then some (.singleton s)
      else if s ∈ g.nonTerminals then some .empty else none := by
  have hterminals := OrderedMap.lookup_map (fun t : Symbol => SymbolSet.singleton t) s
    g.terminals.reverse
  have hnonTerminals := OrderedMap.lookup_map (fun _ : Symbol => SymbolSet.empty) s
    g.nonTerminals.reverse
  simp only [List.mem_reverse] at hterminals hnonTerminals
  simp only [Sets.initial]
  rw [OrderedMap.get?_ofList, List.reverse_append, List.reverse_append, List.reverse_singleton,
    List.singleton_append, OrderedMap.lookup, OrderedMap.lookup_append, ← List.map_reverse,
    ← List.map_reverse, hterminals, hnonTerminals]
  by_cases hε : s = epsilon
  · rw [if_pos hε.symm, if_pos hε]
  · rw [if_neg (Ne.symm hε), if_neg hε]
    by_cases ht : s ∈ g.terminals
    · rw [if_pos ht, if_pos ht]
      rfl
    · rw [if_neg ht, if_neg ht]
      rfl

/-- The FIRST sets begin in range. -/
theorem FirstInRange.initial (g : Grammar) : FirstInRange g (Sets.initial g).first where
  mem := by
    intro s hs x hx
    rw [setOf, get?_initial_first, if_neg (Grammar.not_mem_terminals_of_isNonTerminal hs)] at hx
    split at hx
    · exact Or.inl (SymbolSet.mem_singleton.mp hx)
    · split at hx <;> exact absurd hx (SymbolSet.not_mem_empty x)
  isSome := by
    intro s hs
    rw [get?_initial_first]
    split
    · rfl
    · split
      · rfl
      · rw [if_pos (Grammar.isNonTerminal_iff.mp hs)]
        rfl
  other := by
    intro s hs
    have hn : s ∉ g.nonTerminals := by
      rwa [← Grammar.isNonTerminal_iff, Bool.not_eq_true]
    rw [firstOf, get?_initial_first, if_neg hn]
    split
    · next hε => rw [hε]; rfl
    · split <;> rfl

/-- The clauses for FIRST sets are those of the productions. -/
theorem mem_firstClauses {clause : Clause} :
    clause ∈ firstClauses g ↔ ∃ p ∈ g.productions, clause = .first p := by
  rw [firstClauses, List.mem_map]
  exact exists_congr fun p => and_congr_right fun _ => eq_comm

/-- A clause for FIRST sets keeps them in range. -/
theorem FirstInRange.enlarge {sets : Sets} {clause : Clause} (hc : clause ∈ firstClauses g)
    (h : FirstInRange g sets.first) : FirstInRange g (clause.enlarge sets).first := by
  obtain ⟨p, hp, rfl⟩ := mem_firstClauses.mp hc
  have hr := Grammar.toRule_mem_rules hp
  have hlhs := Grammar.isNonTerminal_lhs hr
  show FirstInRange g (sets.first.insert p.lhs _)
  refine ⟨fun s hs x hx => ?_, fun s hs => ?_, fun s hs => ?_⟩
  · rw [setOf_insert] at hx
    split at hx
    · rcases SymbolSet.mem_union.mp hx with hx | hx
      · exact h.mem p.lhs hlhs x hx
      · exact h.mem_firstOfSequence (fun s hs => Grammar.mem_rhs_cases hr hs) hx
    · exact h.mem s hs x hx
  · rw [OrderedMap.get?_insert]
    split
    · rfl
    · exact h.isSome s hs
  · have hne := Grammar.lhs_ne_of_not_isNonTerminal hs hr
    rw [firstOf, OrderedMap.get?_insert, if_neg hne]
    exact h.other s hs

/-! ## FOLLOW -/

/-- FOLLOW sets as they can occur: the non-terminals have sets of terminals and the end marker, and
the end marker may follow the start symbol. -/
structure FollowInRange (g : Grammar) (follow : SetMap) : Prop where
  /-- The members of a set. -/
  mem : ∀ s, ∀ x ∈ setOf follow s, x = endMarker ∨ x ∈ g.terminals
  /-- Exactly the non-terminals have sets. -/
  isSome_iff : ∀ s, (follow.get? s).isSome ↔ g.isNonTerminal s = true
  /-- The end of the input may follow the start symbol. -/
  start : endMarker ∈ setOf follow g.startSymbol

/-- The FOLLOW sets before any clause is used. -/
theorem get?_initial_follow (g : Grammar) (s : Symbol) :
    (Sets.initial g).follow.get? s =
      if s ∈ g.nonTerminals then
        some (if s = g.startSymbol then .singleton endMarker else .empty)
      else none := by
  have hlookup := OrderedMap.lookup_map
    (fun s : Symbol => if s = g.startSymbol then SymbolSet.singleton endMarker else .empty) s
    g.nonTerminals.reverse
  simp only [List.mem_reverse] at hlookup
  simp only [Sets.initial]
  rw [OrderedMap.get?_ofList, ← List.map_reverse, hlookup]

/-- The FOLLOW sets begin in range. -/
theorem FollowInRange.initial (g : Grammar) : FollowInRange g (Sets.initial g).follow where
  mem := by
    intro s x hx
    rw [setOf, get?_initial_follow] at hx
    split at hx
    · rw [Option.getD_some] at hx
      split at hx
      · exact Or.inl (SymbolSet.mem_singleton.mp hx)
      · exact absurd hx (SymbolSet.not_mem_empty x)
    · exact absurd hx (SymbolSet.not_mem_empty x)
  isSome_iff := by
    intro s
    rw [get?_initial_follow, Grammar.isNonTerminal_iff]
    split
    · next h => exact iff_of_true rfl h
    · next h => exact iff_of_false Bool.noConfusion h
  start := by
    rw [setOf, get?_initial_follow,
      if_pos (Grammar.isNonTerminal_iff.mp g.isNonTerminal_startSymbol), if_pos rfl]
    exact SymbolSet.mem_singleton.mpr rfl

/-- The symbols of a list with their trailers are the ways to split the list at a symbol. -/
theorem mem_withTrailers {s : Symbol} {trailer : List Symbol} :
    (symbols : List Symbol) →
      ((s, trailer) ∈ withTrailers symbols ↔ ∃ before, symbols = before ++ s :: trailer)
  | [] => by simp [withTrailers]
  | t :: rest => by
      rw [withTrailers, List.mem_cons, mem_withTrailers rest]
      constructor
      · rintro (h | ⟨before, rfl⟩)
        · cases h
          exact ⟨[], rfl⟩
        · exact ⟨t :: before, rfl⟩
      · rintro ⟨before, h⟩
        cases before with
        | nil =>
            cases h
            exact Or.inl rfl
        | cons u before =>
            cases h
            exact Or.inr ⟨before, rfl⟩

/-- The clauses for FOLLOW sets are those of the non-terminals in right-hand sides. -/
theorem mem_followClauses {clause : Clause} :
    clause ∈ followClauses g ↔
      ∃ p ∈ g.productions, ∃ before s trailer, p.rhs = before ++ s :: trailer ∧
        g.isNonTerminal s = true ∧ clause = .follow p s trailer := by
  simp only [followClauses, List.mem_flatMap, List.mem_map, List.mem_filter, Prod.exists]
  constructor
  · rintro ⟨p, hp, s, trailer, ⟨hmem, hn⟩, rfl⟩
    obtain ⟨before, hsplit⟩ := (mem_withTrailers p.rhs).mp hmem
    exact ⟨p, hp, before, s, trailer, hsplit, hn, rfl⟩
  · rintro ⟨p, hp, before, s, trailer, hsplit, hn, rfl⟩
    exact ⟨p, hp, s, trailer, ⟨(mem_withTrailers p.rhs).mpr ⟨before, hsplit⟩, hn⟩, rfl⟩

/-- What an occurrence contributes to a FOLLOW set. -/
theorem mem_contribution_follow {sets : Sets} {p : Production} {s x : Symbol}
    {trailer : List Symbol} :
    x ∈ (Clause.follow p s trailer).contribution sets ↔
      (x ∈ firstOfSequence sets.first trailer ∧ x ≠ epsilon) ∨
        (epsilon ∈ firstOfSequence sets.first trailer ∧ x ∈ setOf sets.follow p.lhs) := by
  simp only [Clause.contribution]
  split
  · next hε =>
      rw [SymbolSet.mem_union, SymbolSet.mem_erase, and_iff_right hε]
      rfl
  · next hε =>
      simp only [hε, false_and, or_false]
      refine ⟨fun hx => ⟨hx, ?_⟩, And.left⟩
      rintro rfl
      exact hε hx

/-- A clause for FOLLOW sets keeps them in range and does not change the FIRST sets. -/
theorem FollowInRange.enlarge {sets : Sets} {clause : Clause} (hc : clause ∈ followClauses g)
    (hfirst : FirstInRange g sets.first) (h : FollowInRange g sets.follow) :
    FollowInRange g (clause.enlarge sets).follow ∧ (clause.enlarge sets).first = sets.first := by
  obtain ⟨p, hp, before, s, trailer, hsplit, hs, rfl⟩ := mem_followClauses.mp hc
  have hr := Grammar.toRule_mem_rules hp
  have hcontribution : ∀ x ∈ (Clause.follow p s trailer).contribution sets,
      x = endMarker ∨ x ∈ g.terminals := by
    intro x hx
    rcases mem_contribution_follow.mp hx with ⟨hx, hne⟩ | ⟨-, hx⟩
    · have hmem := hfirst.mem_firstOfSequence (fun t ht => ?_) hx
      · exact Or.inr (hmem.resolve_left hne)
      · apply Grammar.mem_rhs_cases hr
        rw [hsplit]
        exact List.mem_append_right _ (List.mem_cons_of_mem _ ht)
    · exact h.mem p.lhs x hx
  refine ⟨?_, rfl⟩
  show FollowInRange g (sets.follow.insert s _)
  refine ⟨fun s' x hx => ?_, fun s' => ?_, ?_⟩
  · rw [setOf_insert] at hx
    split at hx
    · rcases SymbolSet.mem_union.mp hx with hx | hx
      · exact h.mem s x hx
      · exact hcontribution x hx
    · exact h.mem s' x hx
  · rw [OrderedMap.get?_insert]
    split
    · next heq => exact iff_of_true rfl (heq ▸ hs)
    · exact h.isSome_iff s'
  · rw [setOf_insert]
    split
    · next heq => exact SymbolSet.mem_union.mpr (Or.inl (heq ▸ h.start))
    · exact h.start

/-! ## Both families -/

/-- Sets as they can occur. -/
structure InRange (g : Grammar) (sets : Sets) : Prop where
  /-- The FIRST sets. -/
  first : FirstInRange g sets.first
  /-- The FOLLOW sets. -/
  follow : FollowInRange g sets.follow

/-- The sets begin in range. -/
theorem InRange.initial (g : Grammar) : InRange g (Sets.initial g) := ⟨.initial g, .initial g⟩

/-- A clause keeps the sets in range. -/
theorem InRange.enlarge {sets : Sets} {clause : Clause}
    (hc : clause ∈ firstClauses g ∨ clause ∈ followClauses g) (h : InRange g sets) :
    InRange g (clause.enlarge sets) := by
  rcases hc with hc | hc
  · obtain ⟨p, -, rfl⟩ := mem_firstClauses.mp hc
    exact ⟨h.first.enlarge hc, h.follow⟩
  · obtain ⟨hfollow, hfirst⟩ := h.follow.enlarge hc h.first
    exact ⟨hfirst ▸ h.first, hfollow⟩

/-! ## The computed sets -/

/-- A clause that fails enlarges the set of its symbol. -/
theorem size_current_lt {sets : Sets} {clause : Clause} (h : ¬ clause.Holds sets) :
    (clause.current sets).size < (clause.after sets).size :=
  SymbolSet.size_lt_size_union fun heq => h (Clause.after_eq_current_iff.mp heq)

/-- There are fewer enlargements of FIRST sets than the permitted number of passes. -/
theorem length_firstGrowth_lt {updates : List Update} {final : Sets}
    (h : Growth (firstClauses g) (Sets.initial g) updates final) :
    updates.length < passBound g := by
  have hstep : ∀ sets, ∀ clause ∈ firstClauses g, FirstInRange g sets.first →
      FirstInRange g (clause.enlarge sets).first := fun _ _ hc hin => hin.enlarge hc
  have hrise : ∀ sets, ∀ clause ∈ firstClauses g, FirstInRange g sets.first →
      ¬ clause.Holds sets → weight g sets.first < weight g (clause.enlarge sets).first := by
    intro sets clause hc _ hfails
    obtain ⟨p, hp, rfl⟩ := mem_firstClauses.mp hc
    exact weight_insert_lt (Grammar.isNonTerminal_lhs (Grammar.toRule_mem_rules hp))
      (size_current_lt hfails)
  have hlength := h.length_le _ (fun sets => weight g sets.first) hstep hrise (.initial g)
  have hfinal := (h.inv _ hstep (FirstInRange.initial g)).mem
  have hweight := weight_le (epsilon :: g.terminals) fun s hs x hx =>
    List.mem_cons.mpr (hfinal s hs x hx)
  rw [List.length_cons] at hweight
  unfold passBound
  omega

/-- There are fewer enlargements of FOLLOW sets than the permitted number of passes. -/
theorem length_followGrowth_lt {sets final : Sets} {updates : List Update} (hin : InRange g sets)
    (h : Growth (followClauses g) sets updates final) : updates.length < passBound g := by
  have hstep : ∀ sets, ∀ clause ∈ followClauses g, InRange g sets →
      InRange g (clause.enlarge sets) := fun _ _ hc hin => hin.enlarge (Or.inr hc)
  have hrise : ∀ sets, ∀ clause ∈ followClauses g, InRange g sets → ¬ clause.Holds sets →
      weight g sets.follow < weight g (clause.enlarge sets).follow := by
    intro sets clause hc _ hfails
    obtain ⟨p, hp, before, s, trailer, hsplit, hs, rfl⟩ := mem_followClauses.mp hc
    exact weight_insert_lt hs (size_current_lt hfails)
  have hlength := h.length_le _ (fun sets => weight g sets.follow) hstep hrise hin
  have hfinal := (h.inv _ hstep hin).follow.mem
  have hweight : weight g final.follow ≤ _ := weight_le (endMarker :: g.terminals)
    fun s _ x hx => List.mem_cons.mpr (hfinal s x hx)
  rw [List.length_cons] at hweight
  unfold passBound
  omega

/-- The sets after the passes for FIRST. -/
def firstSaturated (g : Grammar) : Sets :=
  (saturate (firstClauses g) (passBound g) (Sets.initial g)).sets

/-- The sets after all passes. -/
def saturated (g : Grammar) : Sets :=
  (saturate (followClauses g) (passBound g) (firstSaturated g)).sets

/-- The passes for FIRST keep the sets in range. -/
theorem inRange_firstSaturated (g : Grammar) : InRange g (firstSaturated g) :=
  (growth_saturate (firstClauses g) (passBound g) (Sets.initial g)).inv _
    (fun _ _ hc hin => hin.enlarge (Or.inl hc)) (.initial g)

/-- The passes for FIRST leave the FOLLOW sets alone. -/
theorem follow_firstSaturated (g : Grammar) :
    (firstSaturated g).follow = (Sets.initial g).follow := by
  refine (growth_saturate (firstClauses g) (passBound g) (Sets.initial g)).inv
    (fun sets => sets.follow = (Sets.initial g).follow) (fun sets clause hc hin => ?_) rfl
  obtain ⟨p, -, rfl⟩ := mem_firstClauses.mp hc
  exact hin

/-- The passes for FOLLOW keep the sets in range. -/
theorem inRange_saturated (g : Grammar) : InRange g (saturated g) :=
  (growth_saturate (followClauses g) (passBound g) (firstSaturated g)).inv _
    (fun _ _ hc hin => hin.enlarge (Or.inr hc)) (inRange_firstSaturated g)

/-- The passes for FOLLOW leave the FIRST sets alone. -/
theorem first_saturated (g : Grammar) : (saturated g).first = (firstSaturated g).first := by
  refine (growth_saturate (followClauses g) (passBound g) (firstSaturated g)).inv
    (fun sets => sets.first = (firstSaturated g).first) (fun sets clause hc hin => ?_) rfl
  obtain ⟨p, -, before, s, trailer, -, -, rfl⟩ := mem_followClauses.mp hc
  exact hin

/-- The computed FIRST sets are in range. -/
theorem firstInRange_compute (g : Grammar) : FirstInRange g (compute g).first :=
  (inRange_saturated g).first

/-- The computed FOLLOW sets are in range. -/
theorem followInRange_compute (g : Grammar) : FollowInRange g (compute g).follow :=
  (inRange_saturated g).follow

/-- The sets are in range at all times of their computation. -/
theorem inRange_of_mem_history (g : Grammar) :
    ∀ snapshot ∈ (compute g).history, InRange g snapshot.data := by
  have hfirst := (growth_saturate (firstClauses g) (passBound g) (Sets.initial g)).inv_updates _
    (fun _ _ hc hin => hin.enlarge (Or.inl hc)) (InRange.initial g)
  have hfollow := (growth_saturate (followClauses g) (passBound g) (firstSaturated g)).inv_updates
    _ (fun _ _ hc hin => hin.enlarge (Or.inr hc)) (inRange_firstSaturated g)
  intro snapshot hsnapshot
  have hmem := History.mem_steps_of_mem hsnapshot
  simp only [List.mem_append, List.mem_cons, List.mem_map, List.not_mem_nil, or_false,
    Prod.mk.injEq] at hmem
  rcases hmem with ((⟨-, hdata⟩ | ⟨update, hupdate, -, hdata⟩) |
    ⟨-, hdata⟩ | ⟨update, hupdate, -, hdata⟩) | ⟨-, hdata⟩
  · rw [hdata]
    exact .initial g
  · rw [← hdata]
    exact hfirst update hupdate
  · rw [hdata]
    exact inRange_firstSaturated g
  · rw [← hdata]
    exact hfollow update hupdate
  · rw [hdata]
    exact inRange_saturated g

/-- An enlargement keeps the members of the sets. -/
theorem mem_setOf_enlarge_first {sets : Sets} {clause : Clause} (hc : clause ∈ firstClauses g)
    {s x : Symbol} (hx : x ∈ setOf sets.first s) : x ∈ setOf (clause.enlarge sets).first s := by
  obtain ⟨p, -, rfl⟩ := mem_firstClauses.mp hc
  show x ∈ setOf (sets.first.insert p.lhs _) s
  rw [setOf_insert]
  split
  · next heq =>
      subst heq
      exact SymbolSet.mem_union.mpr (Or.inl hx)
  · exact hx

/-- The empty marker may be empty, also where it is rewritten. -/
theorem epsilon_mem_firstOf_compute (g : Grammar) :
    epsilon ∈ firstOf (compute g).first epsilon := by
  have hinitial : epsilon ∈ setOf (Sets.initial g).first epsilon := by
    rw [setOf, get?_initial_first, if_pos rfl, Option.getD_some]
    exact SymbolSet.mem_singleton.mpr rfl
  have hmem : epsilon ∈ setOf (firstSaturated g).first epsilon :=
    (growth_saturate (firstClauses g) (passBound g) (Sets.initial g)).inv
      (fun sets => epsilon ∈ setOf sets.first epsilon)
      (fun _ _ hc hx => mem_setOf_enlarge_first hc hx) hinitial
  rw [← first_saturated g] at hmem
  exact mem_firstOf_of_mem_setOf hmem

/-- The computed FIRST set of a left-hand side includes that of the right-hand side. -/
theorem holds_compute_first {p : Production} (hp : p ∈ g.productions) :
    ∀ x ∈ firstOfSequence (compute g).first p.rhs, x ∈ firstOf (compute g).first p.lhs := by
  have hholds := saturate_holds (firstClauses g) (passBound g) (Sets.initial g)
    (fun _ _ h => length_firstGrowth_lt h) (.first p) (mem_firstClauses.mpr ⟨p, hp, rfl⟩)
  have hlhs := Grammar.isNonTerminal_lhs (Grammar.toRule_mem_rules hp)
  rw [firstOf_eq_setOf ((firstInRange_compute g).isSome _ hlhs)]
  show ∀ x ∈ firstOfSequence (saturated g).first p.rhs, x ∈ setOf (saturated g).first p.lhs
  rw [first_saturated g]
  exact hholds

/-- The computed FOLLOW set of a non-terminal includes what each of its occurrences
contributes. -/
theorem holds_compute_follow {p : Production} (hp : p ∈ g.productions)
    {before trailer : List Symbol} {s : Symbol} (hsplit : p.rhs = before ++ s :: trailer)
    (hs : g.isNonTerminal s = true) {x : Symbol}
    (hx : (x ∈ firstOfSequence (compute g).first trailer ∧ x ≠ epsilon) ∨
      (epsilon ∈ firstOfSequence (compute g).first trailer ∧
        x ∈ setOf (compute g).follow p.lhs)) :
    x ∈ setOf (compute g).follow s := by
  have hholds := saturate_holds (followClauses g) (passBound g) (firstSaturated g)
    (fun _ _ h => length_followGrowth_lt (inRange_firstSaturated g) h) (.follow p s trailer)
    (mem_followClauses.mpr ⟨p, hp, before, s, trailer, hsplit, hs, rfl⟩)
  exact hholds x (mem_contribution_follow.mpr hx)

end TableParsing.FirstFollow
