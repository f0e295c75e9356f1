import TableParsing.Proofs.Grammar.Symbols

/-!
# The added start symbol is new

The name of the added start symbol is found by adding primes. If the last name that is tried were
in use, all the names before it would be (`inUse_of_mem_primed`), and these are more names than the
grammar has symbols. So the added start symbol is neither a non-terminal nor a terminal
(`not_isNonTerminal_augmentedStart`, `augmentedStart_not_mem_terminals`), and no body holds it.

The production of the added start symbol is no production of the grammar;
`Grammar.allProductions` lists it together with those that are.
-/

namespace TableParsing.Grammar

variable {g : Grammar}

/-! ## Names with primes -/

/-- A name and those with up to a number of further primes. -/
def primed : Nat → Symbol → List Symbol
  | 0, name => [name]
  | count + 1, name => name :: primed count (name ++ "'")

/-- There is one name more than there are primes. -/
theorem length_primed : (count : Nat) → (name : Symbol) → (primed count name).length = count + 1
  | 0, _ => rfl
  | count + 1, name => by rw [primed, List.length_cons, length_primed count]

/-- Primes make a name longer. -/
theorem length_le_of_mem_primed {s : Symbol} :
    (count : Nat) → (name : Symbol) → s ∈ primed count name → name.length ≤ s.length
  | 0, name, h => by rw [List.mem_singleton.mp h]
  | count + 1, name, h => by
      rcases List.mem_cons.mp h with rfl | h
      · exact Nat.le_refl _
      · have hle := length_le_of_mem_primed count (name ++ "'") h
        rw [String.length_append] at hle
        omega

/-- Names with different numbers of primes are different. -/
theorem nodup_primed : (count : Nat) → (name : Symbol) → (primed count name).Nodup
  | 0, name => List.nodup_singleton name
  | count + 1, name => by
      rw [primed, List.nodup_cons]
      refine ⟨fun hmem => ?_, nodup_primed count _⟩
      have hle := length_le_of_mem_primed count (name ++ "'") hmem
      rw [String.length_append, show "'".length = 1 from rfl] at hle
      omega

/-- If the name that is found is in use, so are all names that have been tried. -/
theorem inUse_of_mem_primed {inUse : Symbol → Bool} {s : Symbol} :
    (count : Nat) → (name : Symbol) → inUse (freshName inUse count name) = true →
      s ∈ primed count name → inUse s = true
  | 0, name, h, hs => by
      rw [List.mem_singleton.mp hs]
      exact h
  | count + 1, name, h, hs => by
      unfold freshName at h
      split at h
      · next hname =>
          rcases List.mem_cons.mp hs with rfl | hs
          · exact hname
          · exact inUse_of_mem_primed count _ h hs
      · next hname => exact absurd h hname

/-- With as many further primes as there are names in use, the name that is found is not in use. -/
theorem not_inUse_freshName {inUse : Symbol → Bool} {used : List Symbol}
    (h : ∀ s, inUse s = true → s ∈ used) (name : Symbol) :
    inUse (freshName inUse used.length name) = false := by
  rw [← Bool.not_eq_true]
  intro hfound
  have hsub : primed used.length name ⊆ used := fun s hs =>
    h s (inUse_of_mem_primed used.length name hfound hs)
  have hle := (List.subperm_of_subset (nodup_primed used.length name) hsub).length_le
  rw [length_primed] at hle
  omega

/-! ## The added start symbol -/

/-- The added start symbol is no symbol of the grammar. -/
theorem augmentedStart_not_inUse (g : Grammar) :
    (g.isNonTerminal g.augmentedStart || g.isTerminal g.augmentedStart) = false := by
  have hused : ∀ s, (g.isNonTerminal s || g.isTerminal s) = true →
      s ∈ g.nonTerminals ++ g.terminals := by
    intro s hs
    rw [Bool.or_eq_true, isNonTerminal_iff, isTerminal_iff] at hs
    exact List.mem_append.mpr hs
  have hfresh := not_inUse_freshName hused (g.startSymbol ++ "'")
  rwa [List.length_append] at hfresh

/-- The added start symbol is no non-terminal. -/
theorem not_isNonTerminal_augmentedStart (g : Grammar) :
    g.isNonTerminal g.augmentedStart = false :=
  (Bool.or_eq_false_iff.mp g.augmentedStart_not_inUse).1

/-- The added start symbol is no terminal. -/
theorem augmentedStart_not_mem_terminals (g : Grammar) : g.augmentedStart ∉ g.terminals := by
  rw [← isTerminal_iff, Bool.not_eq_true]
  exact (Bool.or_eq_false_iff.mp g.augmentedStart_not_inUse).2

/-! ## All productions -/

/-- The production of the added start symbol and those of the grammar. -/
def allProductions (g : Grammar) : List Production := g.augmentedProduction :: g.productions

/-- A production that does not rewrite the added start symbol is one of the grammar. -/
theorem mem_productions_of_lhs_ne {p : Production} (hp : p ∈ g.allProductions)
    (hlhs : p.lhs ≠ g.augmentedStart) : p ∈ g.productions := by
  rcases List.mem_cons.mp hp with rfl | hp
  · exact absurd rfl hlhs
  · exact hp

/-- A production of the grammar does not rewrite the added start symbol. -/
theorem lhs_ne_augmentedStart {p : Production} (hp : p ∈ g.productions) :
    p.lhs ≠ g.augmentedStart :=
  lhs_ne_of_not_isNonTerminal g.not_isNonTerminal_augmentedStart (toRule_mem_rules hp)

/-- Only the added production rewrites the added start symbol. -/
theorem eq_augmentedProduction {p : Production} (hp : p ∈ g.allProductions)
    (hlhs : p.lhs = g.augmentedStart) : p = g.augmentedProduction := by
  rcases List.mem_cons.mp hp with rfl | hp
  · rfl
  · exact absurd hlhs (lhs_ne_augmentedStart hp)

/-- The body of the added production is the start symbol, unless that is the empty marker. -/
theorem body_augmentedProduction (hε : g.isNonTerminal epsilon = false) :
    g.augmentedProduction.body = [g.startSymbol] := by
  rw [Rule.body, augmentedProduction]
  simp [startSymbol_ne_epsilon hε]

/-- The body of the added production is at most the start symbol. -/
theorem eq_startSymbol_of_body_eq {before after : List Symbol} {s : Symbol}
    (h : g.augmentedProduction.body = before ++ s :: after) : s = g.startSymbol ∧ after = [] := by
  have hsub : (before ++ s :: after).Sublist [g.startSymbol] := h ▸ List.filter_sublist
  have hlength := hsub.length_le
  rw [List.length_append, List.length_cons, List.length_singleton] at hlength
  have hs : s ∈ [g.startSymbol] := hsub.mem (by simp)
  exact ⟨List.mem_singleton.mp hs, List.length_eq_zero_iff.mp (by omega)⟩

/-- The symbols of the bodies are non-terminals and terminals. -/
theorem isNonTerminal_or_mem_terminals_of_mem_body {p : Production} (hp : p ∈ g.allProductions)
    {s : Symbol} (hs : s ∈ p.body) : g.isNonTerminal s = true ∨ s ∈ g.terminals := by
  rcases List.mem_cons.mp hp with rfl | hp
  · have hstart : s ∈ [g.startSymbol] := (List.mem_filter.mp hs).1
    rw [List.mem_singleton] at hstart
    exact Or.inl (hstart ▸ g.isNonTerminal_startSymbol)
  · exact isNonTerminal_or_mem_terminals (toRule_mem_rules hp) hs

end TableParsing.Grammar
