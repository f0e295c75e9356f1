import TableParsing.Proofs.FirstFollow.Range
import TableParsing.Proofs.Grammar.SameRules

/-!
# FIRST and FOLLOW do not depend on the order of the rules

The passes go through the clauses in the order of the rules, so the sets grow in another order if
the rules are reordered. But every clause of a grammar holds of the sets that are computed for a
grammar with the same rules. So none of its enlargements leaves these sets
(`mem_firstOf_of_sameRules`, `mem_setOf_follow_of_sameRules`), and the other way round.

That gives the same sets for all symbols; and since the two computations begin with the same keys
and add none, the same maps (`SameRules.get?_first_eq`, `SameRules.get?_follow_eq`).
-/

namespace TableParsing.FirstFollow

open Grammar (SameRules)

variable {g g' : Grammar} {first first' : SetMap}

/-! ## Monotonicity -/

/-- Larger FIRST sets of symbols give larger FIRST sets of sequences. -/
theorem firstOfSequence_mono (h : ∀ s, ∀ x ∈ firstOf first s, x ∈ firstOf first' s) {x : Symbol} :
    (symbols : List Symbol) → x ∈ firstOfSequence first symbols →
      x ∈ firstOfSequence first' symbols
  | [], hx => hx
  | s :: rest, hx => by
      apply mem_firstOfSequence_cons.mpr
      rcases mem_firstOfSequence_cons.mp hx with ⟨hx, hne⟩ | ⟨hε, hx⟩
      · exact Or.inl ⟨h s x hx, hne⟩
      · exact Or.inr ⟨h s epsilon hε, firstOfSequence_mono h rest hx⟩

/-- FIRST sets of sequences depend on those of symbols only. -/
theorem firstOfSequence_congr (h : ∀ s, firstOf first s = firstOf first' s)
    (symbols : List Symbol) :
    firstOfSequence first symbols = firstOfSequence first' symbols := by
  apply SymbolSet.ext_mem
  intro x
  exact ⟨firstOfSequence_mono (fun s x hx => h s ▸ hx) symbols,
    firstOfSequence_mono (fun s x hx => (h s).symm ▸ hx) symbols⟩

/-! ## The keys -/

/-- The symbols with a FIRST set are those of the grammar and the empty marker. -/
theorem isSome_get?_first_iff (g : Grammar) (s : Symbol) :
    ((compute g).first.get? s).isSome ↔
      s = epsilon ∨ s ∈ g.terminals ∨ g.isNonTerminal s = true := by
  have hinitial : ((Sets.initial g).first.get? s).isSome ↔
      s = epsilon ∨ s ∈ g.terminals ∨ g.isNonTerminal s = true := by
    rw [get?_initial_first, Grammar.isNonTerminal_iff]
    split_ifs with hε ht hn
    · exact iff_of_true rfl (Or.inl hε)
    · exact iff_of_true rfl (Or.inr (Or.inl ht))
    · exact iff_of_true rfl (Or.inr (Or.inr hn))
    · simp [hε, ht, hn]
  have hgrowth := growth_saturate (firstClauses g) (passBound g) (Sets.initial g)
  show ((saturated g).first.get? s).isSome ↔ _
  rw [first_saturated g]
  refine hgrowth.inv (fun sets => (sets.first.get? s).isSome ↔ _) (fun sets clause hc hin => ?_)
    hinitial
  obtain ⟨p, hp, rfl⟩ := mem_firstClauses.mp hc
  change ((sets.first.insert p.lhs _).get? s).isSome ↔ _
  rw [OrderedMap.get?_insert]
  split
  · next heq =>
      have hn := Grammar.isNonTerminal_lhs (Grammar.toRule_mem_rules hp)
      exact iff_of_true rfl (Or.inr (Or.inr (heq ▸ hn)))
  · exact hin

/-! ## The sets -/

section SameRules

variable (h : SameRules g g')
include h

/-- What is in a FIRST set before any clause is used is in the computed one of the other grammar. -/
theorem mem_firstOf_of_initial {s x : Symbol} (hx : x ∈ firstOf (Sets.initial g).first s) :
    x ∈ firstOf (compute g').first s := by
  cases hn : g.isNonTerminal s with
  | false =>
      rw [(FirstInRange.initial g).other s hn] at hx
      rw [h.isNonTerminal_eq] at hn
      rwa [(firstInRange_compute g').other s hn]
  | true =>
      have hterminal := Grammar.not_mem_terminals_of_isNonTerminal hn
      rw [firstOf, get?_initial_first, if_neg hterminal] at hx
      split at hx
      · next hε =>
          rw [hε, SymbolSet.mem_singleton.mp hx]
          exact epsilon_mem_firstOf_compute g'
      · rw [if_pos (Grammar.isNonTerminal_iff.mp hn)] at hx
        exact absurd hx (SymbolSet.not_mem_empty x)

/-- The computed FIRST sets are included in those of the other grammar. -/
theorem mem_firstOf_of_sameRules {s x : Symbol} (hx : x ∈ firstOf (compute g).first s) :
    x ∈ firstOf (compute g').first s := by
  have hgrowth := growth_saturate (firstClauses g) (passBound g) (Sets.initial g)
  have hinv := hgrowth.inv
    (fun sets => ∀ s, ∀ x ∈ firstOf sets.first s, x ∈ firstOf (compute g').first s)
    (fun sets clause hc hin s x hx => ?_) (fun s x hx => mem_firstOf_of_initial h hx)
  · change x ∈ firstOf (saturated g).first s at hx
    rw [first_saturated g] at hx
    exact hinv s x hx
  · obtain ⟨p, hp, rfl⟩ := mem_firstClauses.mp hc
    change x ∈ firstOf (sets.first.insert p.lhs _) s at hx
    rw [firstOf, OrderedMap.get?_insert] at hx
    split at hx
    · next heq =>
        subst heq
        rcases SymbolSet.mem_union.mp hx with hx | hx
        · exact hin p.lhs x (mem_firstOf_of_mem_setOf hx)
        · -- The other grammar has the clause of this rule as well, and it holds there.
          obtain ⟨p', hp', hrule⟩ := h.exists_production hp
          have hholds := holds_compute_first hp' x
          rw [hrule] at hholds
          exact hholds (firstOfSequence_mono hin p.rhs hx)
    · exact hin s x hx

/-- The FIRST sets of symbols are the same. -/
theorem firstOf_compute_eq (s : Symbol) :
    firstOf (compute g).first s = firstOf (compute g').first s := by
  apply SymbolSet.ext_mem
  intro x
  exact ⟨mem_firstOf_of_sameRules h, mem_firstOf_of_sameRules h.symm⟩

/-- The FIRST sets of sequences are the same. -/
theorem firstOfSequence_compute_eq (symbols : List Symbol) :
    firstOfSequence (compute g).first symbols = firstOfSequence (compute g').first symbols :=
  firstOfSequence_congr (firstOf_compute_eq h) symbols

/-- The computed FOLLOW sets are included in those of the other grammar. -/
theorem mem_setOf_follow_of_sameRules {s x : Symbol} (hx : x ∈ setOf (compute g).follow s) :
    x ∈ setOf (compute g').follow s := by
  have hgrowth := growth_saturate (followClauses g) (passBound g) (firstSaturated g)
  refine (hgrowth.inv
    (fun sets => sets.first = (compute g).first ∧
      ∀ s, ∀ x ∈ setOf sets.follow s, x ∈ setOf (compute g').follow s)
    (fun sets clause hc hin => ⟨?_, fun s x hx => ?_⟩) ⟨?_, fun s x hx => ?_⟩).2 s x hx
  · obtain ⟨p, -, before, s, trailer, -, -, rfl⟩ := mem_followClauses.mp hc
    exact hin.1
  · obtain ⟨p, hp, before, s', trailer, hsplit, hn, rfl⟩ := mem_followClauses.mp hc
    change x ∈ setOf (sets.follow.insert s' _) s at hx
    rw [setOf_insert] at hx
    split at hx
    · next heq =>
        subst heq
        rcases SymbolSet.mem_union.mp hx with hx | hx
        · exact hin.2 s' x hx
        · -- The other grammar has the clause of this occurrence as well, and it holds there.
          obtain ⟨p', hp', hrule⟩ := h.exists_production hp
          rw [← hrule] at hsplit
          rw [h.isNonTerminal_eq] at hn
          apply holds_compute_follow hp' hsplit hn
          rw [← firstOfSequence_compute_eq h, ← hin.1, hrule]
          exact (mem_contribution_follow.mp hx).imp_right fun hx => ⟨hx.1, hin.2 _ x hx.2⟩
    · exact hin.2 s x hx
  · exact (first_saturated g).symm
  · rw [follow_firstSaturated g, setOf, get?_initial_follow] at hx
    split at hx
    · rw [Option.getD_some] at hx
      split at hx
      · next hstart =>
          rw [SymbolSet.mem_singleton.mp hx, hstart, h.startSymbol_eq]
          exact (followInRange_compute g').start
      · exact absurd hx (SymbolSet.not_mem_empty x)
    · exact absurd hx (SymbolSet.not_mem_empty x)

/-- The FOLLOW sets are the same. -/
theorem setOf_follow_eq (s : Symbol) :
    setOf (compute g).follow s = setOf (compute g').follow s := by
  apply SymbolSet.ext_mem
  intro x
  exact ⟨mem_setOf_follow_of_sameRules h, mem_setOf_follow_of_sameRules h.symm⟩

end SameRules

/-! ## The maps -/

/-- What two maps have for a key is the same if it is the same wherever a default fills in, and
either map has the key. -/
theorem get?_eq_of_getD_eq {s : Symbol} {default : SymbolSet}
    (hkey : (first.get? s).isSome ↔ (first'.get? s).isSome)
    (hset : (first.get? s).getD default = (first'.get? s).getD default) :
    first.get? s = first'.get? s := by
  cases hget : first.get? s with
  | none =>
      rw [hget] at hkey
      exact (Option.not_isSome_iff_eq_none.mp fun hsome => Bool.noConfusion (hkey.mpr hsome)).symm
  | some value =>
      rw [hget] at hkey hset
      obtain ⟨value', hget'⟩ := Option.isSome_iff_exists.mp (hkey.mp rfl)
      rw [hget'] at hset ⊢
      exact congrArg some hset

end TableParsing.FirstFollow

namespace TableParsing.Grammar.SameRules

open FirstFollow

variable {g g' : Grammar} (h : SameRules g g')
include h

/-- Grammars with the same rules have the same map of FIRST sets. -/
theorem get?_first_eq (s : Symbol) : (compute g).first.get? s = (compute g').first.get? s := by
  have hkey : ((compute g).first.get? s).isSome ↔ ((compute g').first.get? s).isSome := by
    rw [isSome_get?_first_iff, isSome_get?_first_iff, h.isNonTerminal_eq, h.mem_terminals_iff]
  exact get?_eq_of_getD_eq hkey (firstOf_compute_eq h s)

/-- Grammars with the same rules have the same map of FOLLOW sets. -/
theorem get?_follow_eq (s : Symbol) :
    (compute g).follow.get? s = (compute g').follow.get? s := by
  have hkey : ((compute g).follow.get? s).isSome ↔ ((compute g').follow.get? s).isSome := by
    rw [(followInRange_compute g).isSome_iff, (followInRange_compute g').isSome_iff,
      h.isNonTerminal_eq]
  exact get?_eq_of_getD_eq hkey (setOf_follow_eq h s)

end TableParsing.Grammar.SameRules
