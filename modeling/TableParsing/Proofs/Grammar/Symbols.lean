import Mathlib
import TableParsing.Proofs.Grammar.Written

/-!
# The symbols of a grammar

What can stand where in the rules: a symbol of a body is a non-terminal or a terminal, and not
both (`isNonTerminal_or_mem_terminals`), and in a grammar that has been read no rule uses the end
marker (`avoidsEndMarker_of_read`), so that the end marker is neither.
-/

namespace TableParsing

/-- A symbol of the body is written in the right-hand side. -/
theorem Rule.mem_rhs_of_mem_body {r : Rule} {s : Symbol} (h : s ∈ r.body) : s ∈ r.rhs :=
  (List.mem_filter.mp h).1

/-- A body holds no empty marker. -/
theorem Rule.ne_epsilon_of_mem_body {r : Rule} {s : Symbol} (h : s ∈ r.body) : s ≠ epsilon := by
  simpa using (List.mem_filter.mp h).2

namespace Grammar

variable {g : Grammar}

/-! ## Rules and productions -/

/-- The rules of the productions, without their numbers. -/
theorem map_toRule_productions (g : Grammar) : g.productions.map Production.toRule = g.rules := by
  apply List.ext_getElem?
  intro i
  rw [List.getElem?_map, getElem?_productions, Option.map_map]
  exact Option.map_id'

/-- The rule of a production is a rule of the grammar. -/
theorem toRule_mem_rules {p : Production} (h : p ∈ g.productions) : p.toRule ∈ g.rules := by
  rw [productions, List.mem_mapIdx] at h
  obtain ⟨i, hi, rfl⟩ := h
  exact List.getElem_mem hi

/-- Every rule is that of a production. -/
theorem exists_production {r : Rule} (h : r ∈ g.rules) : ∃ p ∈ g.productions, p.toRule = r := by
  obtain ⟨i, hi, rfl⟩ := List.getElem_of_mem h
  exact ⟨_, List.mem_mapIdx.mpr ⟨i, hi, rfl⟩, rfl⟩

/-- Productions are numbered in their order. -/
theorem pairwise_index_productions (g : Grammar) :
    g.productions.Pairwise fun p q => p.index < q.index := by
  rw [List.pairwise_iff_getElem]
  intro i j hi hj hij
  simp only [productions, List.getElem_mapIdx]
  exact Int.ofNat_lt.mpr hij

/-- The numbers of productions are not negative. -/
theorem index_nonneg {p : Production} (hp : p ∈ g.productions) : 0 ≤ p.index := by
  rw [productions, List.mem_mapIdx] at hp
  obtain ⟨i, -, rfl⟩ := hp
  exact Int.natCast_nonneg i

/-- No production is listed twice, since their numbers differ. -/
theorem nodup_productions (g : Grammar) : g.productions.Nodup := by
  refine g.pairwise_index_productions.imp ?_
  rintro p _ hlt rfl
  exact Int.lt_irrefl _ hlt

/-- The left-hand side of a rule is a non-terminal. -/
theorem isNonTerminal_lhs {r : Rule} (hr : r ∈ g.rules) : g.isNonTerminal r.lhs = true :=
  List.any_eq_true.mpr ⟨r, hr, by simp⟩

/-- A non-terminal differs from every symbol that is none. -/
theorem ne_of_isNonTerminal {s t : Symbol} (hs : g.isNonTerminal s = true)
    (ht : g.isNonTerminal t = false) : s ≠ t := by
  rintro rfl
  rw [hs] at ht
  exact Bool.noConfusion ht

/-- A symbol that is no non-terminal is not the left-hand side of a rule. -/
theorem lhs_ne_of_not_isNonTerminal {s : Symbol} (hs : g.isNonTerminal s = false) {r : Rule}
    (hr : r ∈ g.rules) : r.lhs ≠ s := ne_of_isNonTerminal (isNonTerminal_lhs hr) hs

/-- The start symbol is a non-terminal. -/
theorem isNonTerminal_startSymbol (g : Grammar) : g.isNonTerminal g.startSymbol = true :=
  List.any_eq_true.mpr ⟨_, List.head_mem g.rules_ne_nil, by simp [startSymbol]⟩

/-- Terminals are the written symbols without rules other than the empty marker. -/
theorem mem_terminals {s : Symbol} :
    s ∈ g.terminals ↔
      (∃ r ∈ g.rules, s ∈ r.rhs) ∧ s ≠ epsilon ∧ g.isNonTerminal s = false := by
  simp [terminals, isTerminalName]

/-- A terminal has no rules. -/
theorem not_isNonTerminal_of_mem_terminals {s : Symbol} (h : s ∈ g.terminals) :
    g.isNonTerminal s = false := (mem_terminals.mp h).2.2

/-- A non-terminal is no terminal. -/
theorem not_mem_terminals_of_isNonTerminal {s : Symbol} (h : g.isNonTerminal s = true) :
    s ∉ g.terminals := fun hs =>
  ne_of_isNonTerminal h (not_isNonTerminal_of_mem_terminals hs) rfl

/-- A written symbol is the empty marker, a non-terminal or a terminal. -/
theorem mem_rhs_cases {r : Rule} (hr : r ∈ g.rules) {s : Symbol} (hs : s ∈ r.rhs) :
    s = epsilon ∨ g.isNonTerminal s = true ∨ s ∈ g.terminals := by
  by_cases hε : s = epsilon
  · exact Or.inl hε
  · cases hn : g.isNonTerminal s with
    | true => exact Or.inr (Or.inl rfl)
    | false => exact Or.inr (Or.inr (mem_terminals.mpr ⟨⟨r, hr, hs⟩, hε, hn⟩))

/-- A symbol of a body is a non-terminal or a terminal. -/
theorem isNonTerminal_or_mem_terminals {r : Rule} (hr : r ∈ g.rules) {s : Symbol}
    (hs : s ∈ r.body) : g.isNonTerminal s = true ∨ s ∈ g.terminals :=
  (mem_rhs_cases hr (Rule.mem_rhs_of_mem_body hs)).resolve_left (Rule.ne_epsilon_of_mem_body hs)

/-! ## The end marker -/

/-- No rule uses the end marker. -/
structure AvoidsEndMarker (g : Grammar) : Prop where
  /-- The end marker is not rewritten. -/
  lhs_ne : ∀ r ∈ g.rules, r.lhs ≠ endMarker
  /-- The end marker is not written on a right-hand side. -/
  not_mem_rhs : ∀ r ∈ g.rules, endMarker ∉ r.rhs

/-- A grammar that has been read does not use the end marker. -/
theorem avoidsEndMarker_of_read {text : String} (h : read text = .ok g) : g.AvoidsEndMarker where
  lhs_ne _ hr := (isWritten_of_read h hr).lhs.ne_endMarker
  not_mem_rhs _ hr hmem := ((isWritten_of_read h hr).rhs endMarker hmem).ne_endMarker rfl

namespace AvoidsEndMarker

/-- The end marker has no rules. -/
theorem not_isNonTerminal (h : g.AvoidsEndMarker) : g.isNonTerminal endMarker = false := by
  rw [isNonTerminal, List.any_eq_false]
  intro r hr
  simpa using h.lhs_ne r hr

/-- The end marker is no terminal. -/
theorem not_mem_terminals (h : g.AvoidsEndMarker) : endMarker ∉ g.terminals := by
  intro hmem
  obtain ⟨⟨r, hr, hrhs⟩, _⟩ := mem_terminals.mp hmem
  exact h.not_mem_rhs r hr hrhs

/-- No symbol of a body is the end marker. -/
theorem ne_of_mem_body (h : g.AvoidsEndMarker) {r : Rule} (hr : r ∈ g.rules) {s : Symbol}
    (hs : s ∈ r.body) : s ≠ endMarker := by
  rintro rfl
  exact h.not_mem_rhs r hr (Rule.mem_rhs_of_mem_body hs)

end AvoidsEndMarker

/-- A symbol is none of the grammar. -/
structure Unused (g : Grammar) (s : Symbol) : Prop where
  /-- It has no rules. -/
  not_isNonTerminal : g.isNonTerminal s = false
  /-- It is no terminal. -/
  not_mem_terminals : s ∉ g.terminals

/-- The symbols of the grammar are others. -/
theorem Unused.ne {s t : Symbol} (h : g.Unused t)
    (hs : g.isNonTerminal s = true ∨ s ∈ g.terminals) : s ≠ t := by
  rintro rfl
  rcases hs with hn | hterminal
  · exact ne_of_isNonTerminal hn h.not_isNonTerminal rfl
  · exact h.not_mem_terminals hterminal

/-- The end marker is none of a grammar that avoids it. -/
theorem AvoidsEndMarker.unused (h : g.AvoidsEndMarker) : g.Unused endMarker :=
  ⟨h.not_isNonTerminal, h.not_mem_terminals⟩

/-! ## The empty marker -/

/-- The empty marker has no rules, if it is none of the left-hand sides. -/
theorem not_isNonTerminal_epsilon (h : epsilon ∉ g.nonTerminals) :
    g.isNonTerminal epsilon = false := by
  rw [← Bool.not_eq_true, isNonTerminal_iff]
  exact h

/-- The start symbol is not the empty marker, if that has no rules. -/
theorem startSymbol_ne_epsilon (hε : g.isNonTerminal epsilon = false) :
    g.startSymbol ≠ epsilon := ne_of_isNonTerminal g.isNonTerminal_startSymbol hε

/-- Neither a non-terminal nor a terminal is the empty marker, if that has no rules. -/
theorem ne_epsilon_of_isNonTerminal_or_mem_terminals (hε : g.isNonTerminal epsilon = false)
    {s : Symbol} (hs : g.isNonTerminal s = true ∨ s ∈ g.terminals) : s ≠ epsilon := by
  rcases hs with hn | hterminal
  · exact ne_of_isNonTerminal hn hε
  · exact (mem_terminals.mp hterminal).2.1

/-! ## Two small grammars -/

/-- Nested brackets, with a rule without a body. -/
def nested : Grammar where
  rules := [⟨"S", ["a", "S", "b"]⟩, ⟨"S", ["ε"]⟩]
  rules_ne_nil := List.cons_ne_nil _ _
  skipped := []

/-- The text of the nested brackets. -/
theorem read_nested : read "S -> a S b |" = .ok nested := rfl

/-- Ambiguous sums, with the same rule twice. -/
def sums : Grammar where
  rules := [⟨"E", ["E", "+", "E"]⟩, ⟨"E", ["id"]⟩, ⟨"E", ["id"]⟩]
  rules_ne_nil := List.cons_ne_nil _ _
  skipped := []

/-- The text of the sums. -/
theorem read_sums : read "E -> E + E | id | id" = .ok sums := rfl

end Grammar

end TableParsing
