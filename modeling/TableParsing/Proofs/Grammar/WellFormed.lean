import TableParsing.Proofs.Distinct
import TableParsing.Proofs.Grammar.Symbols

/-!
# Well-formed grammars

What the reader guarantees of every grammar it returns (`wellFormed_of_read`): the numbers of the
productions, the order in which the symbols are listed, and that each symbol of a right-hand side is
of one kind.

Most of this follows from how a grammar gets its symbols from its rules, and holds of any grammar.
The text is needed for three facts: no right-hand side is empty, the end marker is not used, and the
other names of the empty marker are resolved on the right (`Rule.IsWritten`). Left-hand sides are
not resolved, and the empty marker itself may be one. Then it is a non-terminal, and still the
marker of an empty right-hand side (`epsilon_mem_nonTerminals_read`). So the kinds are told apart
with the marker taken out of the non-terminals.
-/

namespace TableParsing.Grammar

variable {g : Grammar}

/-- What holds of a grammar that has been read. -/
structure WellFormed (g : Grammar) : Prop where
  /-- There is a production. -/
  productions_ne_nil : g.productions ≠ []
  /-- The number of a production is its place. -/
  index_eq : ∀ i (h : i < g.productions.length), g.productions[i].index = i
  /-- The first production rewrites the start symbol. -/
  startSymbol_eq : g.startSymbol = (g.productions.head productions_ne_nil).lhs
  /-- The non-terminals are the left-hand sides. -/
  nonTerminals : FirstOccurrences (fun _ => True) (g.productions.map (·.lhs)) g.nonTerminals
  /-- The terminals are the symbols of the right-hand sides that are neither the empty marker nor
  non-terminals. -/
  terminals : FirstOccurrences (fun s => s ≠ epsilon ∧ s ∉ g.nonTerminals)
    (g.productions.flatMap (·.rhs)) g.terminals
  /-- No right-hand side is empty. -/
  rhs_ne_nil : ∀ p ∈ g.productions, p.rhs ≠ []
  /-- A symbol of a right-hand side is a non-terminal other than the empty marker, a terminal, or the
  empty marker, and only one of these. -/
  kinds : ∀ p ∈ g.productions, ∀ s ∈ p.rhs,
    (s ∈ g.nonTerminals ∧ s ≠ epsilon ∧ s ∉ g.terminals) ∨
      (s ∈ g.terminals ∧ s ≠ epsilon ∧ s ∉ g.nonTerminals) ∨ (s = epsilon ∧ s ∉ g.terminals)
  /-- The end marker is not a symbol. -/
  endMarker_not_mem : endMarker ∉ g.nonTerminals ∧ endMarker ∉ g.terminals
  /-- The empty marker is not a terminal, under any of its names. -/
  epsilon_not_mem : ∀ s ∈ epsilon :: epsilonAliases, s ∉ g.terminals

/-- The left-hand sides of the productions are those of the rules. -/
theorem map_lhs_productions (g : Grammar) :
    g.productions.map (·.lhs) = g.rules.map Rule.lhs := by
  rw [← map_toRule_productions g, List.map_map]
  rfl

/-- The right-hand sides of the productions are those of the rules. -/
theorem flatMap_rhs_productions (g : Grammar) :
    g.productions.flatMap (·.rhs) = g.rules.flatMap Rule.rhs := by
  rw [← map_toRule_productions g, List.flatMap_map]

/-- The non-terminals are listed in the order of their first rules. -/
theorem firstOccurrences_nonTerminals (g : Grammar) :
    FirstOccurrences (fun _ => True) (g.productions.map (·.lhs)) g.nonTerminals := by
  have h := firstOccurrences_filter (P := fun _ => True) (p := fun _ => true) (by simp)
    (g.rules.map Rule.lhs)
  rw [List.filter_true] at h
  rw [map_lhs_productions]
  exact h

/-- The terminals are listed in the order of their first use. -/
theorem firstOccurrences_terminals (g : Grammar) :
    FirstOccurrences (fun s => s ≠ epsilon ∧ s ∉ g.nonTerminals)
      (g.productions.flatMap (·.rhs)) g.terminals := by
  rw [flatMap_rhs_productions]
  refine firstOccurrences_filter (fun s => ?_) _
  rw [isTerminalName, ← isNonTerminal_iff]
  simp

/-- A symbol of a right-hand side is of one kind. -/
theorem kinds_of_mem_rhs {r : Rule} (hr : r ∈ g.rules) {s : Symbol} (hs : s ∈ r.rhs) :
    (s ∈ g.nonTerminals ∧ s ≠ epsilon ∧ s ∉ g.terminals) ∨
      (s ∈ g.terminals ∧ s ≠ epsilon ∧ s ∉ g.nonTerminals) ∨
        (s = epsilon ∧ s ∉ g.terminals) := by
  by_cases hε : s = epsilon
  · exact Or.inr (Or.inr ⟨hε, fun hmem => (mem_terminals.mp hmem).2.1 hε⟩)
  · rcases (mem_rhs_cases hr hs).resolve_left hε with hn | hterminal
    · exact Or.inl ⟨isNonTerminal_iff.mp hn, hε, not_mem_terminals_of_isNonTerminal hn⟩
    · refine Or.inr (Or.inl ⟨hterminal, hε, fun hmem => ?_⟩)
      exact not_mem_terminals_of_isNonTerminal (isNonTerminal_iff.mpr hmem) hterminal

/-- The empty marker is not a terminal, under any of its names, if these are resolved in the
right-hand sides. -/
theorem epsilon_not_mem_terminals (h : ∀ r ∈ g.rules, r.IsWritten) :
    ∀ s ∈ epsilon :: epsilonAliases, s ∉ g.terminals := by
  intro s hs hmem
  obtain ⟨⟨r, hr, hrhs⟩, hε, -⟩ := mem_terminals.mp hmem
  rcases List.mem_cons.mp hs with rfl | halias
  · exact hε rfl
  · exact ((h r hr).rhs s hrhs).not_alias halias

/-- A grammar that has been read is well-formed. -/
theorem wellFormed_of_read {text : String} (h : read text = .ok g) : g.WellFormed where
  productions_ne_nil := by
    intro hnil
    have hrules := map_toRule_productions g
    rw [hnil, List.map_nil] at hrules
    exact g.rules_ne_nil hrules.symm
  index_eq i hi := by simp [productions]
  startSymbol_eq := by
    rw [startSymbol]
    simp [productions, List.head_eq_getElem]
  nonTerminals := g.firstOccurrences_nonTerminals
  terminals := g.firstOccurrences_terminals
  rhs_ne_nil p hp := (isWritten_of_read h (toRule_mem_rules hp)).rhs_ne_nil
  kinds p hp s hs := kinds_of_mem_rhs (toRule_mem_rules hp) hs
  endMarker_not_mem := by
    have hend := avoidsEndMarker_of_read h
    refine ⟨fun hmem => ?_, hend.not_mem_terminals⟩
    exact ne_of_isNonTerminal (isNonTerminal_iff.mpr hmem) hend.not_isNonTerminal rfl
  epsilon_not_mem := epsilon_not_mem_terminals fun _ hr => isWritten_of_read h hr

/-- The nested brackets are well-formed. -/
theorem wellFormed_of_read_nested : nested.WellFormed := wellFormed_of_read read_nested

/-- The empty marker may be the left-hand side of a rule. Then it is a non-terminal, also where it
marks an empty right-hand side. -/
theorem epsilon_mem_nonTerminals_read :
    ∃ g, read "S -> ε\nε -> b" = .ok g ∧ epsilon ∈ g.nonTerminals ∧
      ∃ p ∈ g.productions, epsilon ∈ p.rhs :=
  ⟨⟨[⟨"S", ["ε"]⟩, ⟨"ε", ["b"]⟩], List.cons_ne_nil _ _, []⟩, rfl, by decide,
    ⟨⟨"S", ["ε"]⟩, 0⟩, by decide, by decide⟩

end TableParsing.Grammar
