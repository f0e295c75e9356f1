import TableParsing.Proofs.Grammar.Augmented

/-!
# Grammars with the same rules

Two grammars may have the same rules and the same start symbol, and differ in the order of the rules
and in how often one is written (`SameRules`). Then they have the same symbols, though in another
order, and the same added start symbol. What differs is the numbers of the productions, and which of
two productions with the same rule comes first.

The relation is symmetric, so the lemmas on it go in one direction where both are meant.
-/

namespace TableParsing.Grammar

/-- Two grammars have the same rules and the same start symbol. -/
structure SameRules (g g' : Grammar) : Prop where
  /-- The start symbols are the same. -/
  startSymbol_eq : g.startSymbol = g'.startSymbol
  /-- The rules are the same. -/
  mem_rules_iff : ∀ r, r ∈ g.rules ↔ r ∈ g'.rules

namespace SameRules

variable {g g' : Grammar}

/-- Grammars whose productions are the same in another order, up to their numbers, have the same
rules. -/
theorem of_perm (hstart : g.startSymbol = g'.startSymbol)
    (hperm : (g.productions.map Production.toRule).Perm (g'.productions.map Production.toRule)) :
    SameRules g g' := by
  rw [map_toRule_productions, map_toRule_productions] at hperm
  exact ⟨hstart, fun _ => hperm.mem_iff⟩

variable (h : SameRules g g')
include h

/-- The relation is symmetric. -/
theorem symm : SameRules g' g := ⟨h.startSymbol_eq.symm, fun r => (h.mem_rules_iff r).symm⟩

/-- A production has the rule of a production of the other grammar. -/
theorem exists_production {p : Production} (hp : p ∈ g.productions) :
    ∃ p' ∈ g'.productions, p'.toRule = p.toRule :=
  Grammar.exists_production ((h.mem_rules_iff _).mp (toRule_mem_rules hp))

/-- The symbols with rules are the same. -/
theorem isNonTerminal_eq (s : Symbol) : g.isNonTerminal s = g'.isNonTerminal s := by
  rw [Bool.eq_iff_iff, isNonTerminal, isNonTerminal, List.any_eq_true, List.any_eq_true]
  exact exists_congr fun r => and_congr_left fun _ => h.mem_rules_iff r

/-- The non-terminals are the same. -/
theorem mem_nonTerminals_iff {s : Symbol} : s ∈ g.nonTerminals ↔ s ∈ g'.nonTerminals := by
  rw [← isNonTerminal_iff, ← isNonTerminal_iff, h.isNonTerminal_eq]

/-- The terminals are the same. -/
theorem mem_terminals_iff {s : Symbol} : s ∈ g.terminals ↔ s ∈ g'.terminals := by
  rw [mem_terminals, mem_terminals, h.isNonTerminal_eq]
  refine and_congr_left fun _ => ?_
  exact exists_congr fun r => and_congr_left fun _ => h.mem_rules_iff r

/-- There are as many non-terminals, and as many terminals. -/
theorem length_symbols_eq : g.nonTerminals.length + g.terminals.length =
    g'.nonTerminals.length + g'.terminals.length := by
  have hn : g.nonTerminals.Perm g'.nonTerminals :=
    (List.perm_ext_iff_of_nodup (nodup_distinct _) (nodup_distinct _)).mpr
      fun _ => h.mem_nonTerminals_iff
  have ht : g.terminals.Perm g'.terminals :=
    (List.perm_ext_iff_of_nodup (nodup_distinct _) (nodup_distinct _)).mpr
      fun _ => h.mem_terminals_iff
  rw [hn.length_eq, ht.length_eq]

/-- The added start symbol is the same. -/
theorem augmentedStart_eq : g.augmentedStart = g'.augmentedStart := by
  have hinUse : (fun s => g.isNonTerminal s || g.isTerminal s) =
      fun s => g'.isNonTerminal s || g'.isTerminal s := by
    funext s
    have ht : g.isTerminal s = g'.isTerminal s := by
      rw [Bool.eq_iff_iff, isTerminal_iff, isTerminal_iff]
      exact h.mem_terminals_iff
    rw [h.isNonTerminal_eq, ht]
  rw [augmentedStart, augmentedStart, hinUse, h.length_symbols_eq, h.startSymbol_eq]

/-- The production of the added start symbol is the same. -/
theorem augmentedProduction_eq : g.augmentedProduction = g'.augmentedProduction := by
  rw [augmentedProduction, augmentedProduction, h.augmentedStart_eq, h.startSymbol_eq]

end SameRules

end TableParsing.Grammar
