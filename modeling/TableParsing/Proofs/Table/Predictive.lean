import TableParsing.Proofs.Grammar.Symbols
import TableParsing.Proofs.Table.Cells
import TableParsing.Table.Predictive

/-!
# The cells of a predictive table

Every cell of a predictive table holds a production of the grammar for the non-terminal of its row
that predicts the symbol of its column (`exists_of_get?_predictive`). If no cell has been
overwritten, each production is found under every symbol that it predicts
(`get?_predictive_of_clean`).
-/

namespace TableParsing.Table

/-- Entering a production changes the cell of its row and column and no other. -/
theorem get?_predict (table : Table) (p : Production) (symbol : Symbol) (row : Row)
    (symbol' : Symbol) :
    (table.predict p symbol).get? row symbol' =
      if .nonTerminal p.lhs = row ∧ symbol = symbol' then some (.predict p)
      else table.get? row symbol' := by
  rw [← get?_set]
  unfold predict
  simp only
  split
  · split <;> rfl
  · rfl

/-- Entering a production does not change what the table is for. -/
theorem algorithm_predict (table : Table) (p : Production) (symbol : Symbol) :
    (table.predict p symbol).algorithm = table.algorithm := by
  unfold predict
  simp only
  split
  · split <;> rfl
  · rfl

/-- Entering a production into a row that is there adds no row. -/
theorem keys_rows_predict {table : Table} {p : Production}
    (h : Row.nonTerminal p.lhs ∈ table.rows.keys) (symbol : Symbol) :
    (table.predict p symbol).rows.keys = table.rows.keys := by
  have hset : (table.set (.nonTerminal p.lhs) symbol (.predict p)).rows.keys =
      table.rows.keys := by
    rw [set, OrderedMap.keys_insert, if_pos h]
  rw [← hset]
  unfold predict
  simp only
  split
  · split <;> rfl
  · rfl

/-- What is overwritten when a production is entered: another production, if there is one in the
cell. -/
def overwritten (table : Table) (p : Production) (symbol : Symbol) : List Overwrite :=
  match (table.get? (.nonTerminal p.lhs) symbol).bind Action.production? with
  | some old => if old = p then [] else [⟨p.lhs, symbol, old, p⟩]
  | none => []

/-- Entering a production adds what is overwritten to the list. -/
theorem overwrites_predict (table : Table) (p : Production) (symbol : Symbol) :
    (table.predict p symbol).overwrites = table.overwrites ++ table.overwritten p symbol := by
  cases hold : (table.get? (.nonTerminal p.lhs) symbol).bind Action.production? with
  | none =>
      simp only [predict, overwritten, hold]
      exact (List.append_nil _).symm
  | some old =>
      simp only [predict, overwritten, hold]
      split
      · exact (List.append_nil _).symm
      · rfl

/-- Where nothing is overwritten, the cell was free or held the same production. -/
theorem eq_of_overwrites_predict_nil {table : Table} {p old : Production} {symbol : Symbol}
    (hclean : (table.predict p symbol).overwrites = [])
    (hold : table.get? (.nonTerminal p.lhs) symbol = some (.predict old)) : old = p := by
  rw [overwrites_predict, List.append_eq_nil_iff, overwritten, hold] at hclean
  by_contra hne
  simp [Action.production?, hne] at hclean

/-! ## Entering a list of productions -/

/-- Enters productions under symbols one after the other. -/
def predictAll (table : Table) (entries : List (Production × Symbol)) : Table :=
  entries.foldl (fun table entry => table.predict entry.1 entry.2) table

/-- Entering productions does not change what the table is for. -/
theorem algorithm_predictAll :
    (entries : List (Production × Symbol)) → (table : Table) →
      (table.predictAll entries).algorithm = table.algorithm
  | [], _ => rfl
  | entry :: entries, table =>
      (algorithm_predictAll entries _).trans (algorithm_predict table entry.1 entry.2)

/-- Entering productions into rows that are there adds no row. -/
theorem keys_rows_predictAll :
    (entries : List (Production × Symbol)) → (table : Table) →
      (∀ entry ∈ entries, Row.nonTerminal entry.1.lhs ∈ table.rows.keys) →
        (table.predictAll entries).rows.keys = table.rows.keys
  | [], _, _ => rfl
  | entry :: entries, table, h => by
      rw [List.forall_mem_cons] at h
      have hentry := keys_rows_predict h.1 entry.2
      have hrest := keys_rows_predictAll entries (table.predict entry.1 entry.2)
        (by rw [hentry]; exact h.2)
      exact hrest.trans hentry

/-- The list of overwritten cells only grows. -/
theorem overwrites_predictAll :
    (entries : List (Production × Symbol)) → (table : Table) →
      table.overwrites <+: (table.predictAll entries).overwrites
  | [], _ => List.prefix_rfl
  | entry :: entries, table => by
      have hentry : table.overwrites <+: (table.predict entry.1 entry.2).overwrites := by
        rw [overwrites_predict]
        exact List.prefix_append _ _
      exact hentry.trans (overwrites_predictAll entries _)

/-- A cell holds what it held before or one of the productions entered. -/
theorem mem_of_get?_predictAll {row : Row} {symbol : Symbol} {action : Action} :
    (entries : List (Production × Symbol)) → (table : Table) →
      (table.predictAll entries).get? row symbol = some action →
        table.get? row symbol = some action ∨
          ∃ p, (p, symbol) ∈ entries ∧ row = .nonTerminal p.lhs ∧ action = .predict p
  | [], _, h => Or.inl h
  | entry :: entries, table, h => by
      rcases mem_of_get?_predictAll entries _ h with h | ⟨p, hp, hrow, haction⟩
      · rw [get?_predict] at h
        split at h
        · next hcell =>
            cases h
            refine Or.inr ⟨entry.1, ?_, hcell.1.symm, rfl⟩
            rw [← hcell.2]
            exact List.mem_cons_self
        · exact Or.inl h
      · exact Or.inr ⟨p, List.mem_cons_of_mem _ hp, hrow, haction⟩

/-- A production that is in its cell stays there if nothing is overwritten. -/
theorem get?_predictAll_of_get? {p : Production} {symbol : Symbol} :
    (entries : List (Production × Symbol)) → (table : Table) →
      (table.predictAll entries).overwrites = [] →
        table.get? (.nonTerminal p.lhs) symbol = some (.predict p) →
          (table.predictAll entries).get? (.nonTerminal p.lhs) symbol = some (.predict p)
  | [], _, _, h => h
  | entry :: entries, table, hclean, h => by
      refine get?_predictAll_of_get? entries _ hclean ?_
      have hstep : (table.predict entry.1 entry.2).overwrites = [] :=
        List.prefix_nil.mp (hclean ▸ overwrites_predictAll entries _)
      rw [get?_predict]
      split
      · next hcell =>
          have hlhs : entry.1.lhs = p.lhs := Row.nonTerminal.inj hcell.1
          rw [← hlhs, ← hcell.2] at h
          rw [eq_of_overwrites_predict_nil hstep h]
      · exact h

/-- Every production entered is in its cell if nothing is overwritten. -/
theorem get?_predictAll_of_mem {p : Production} {symbol : Symbol} :
    (entries : List (Production × Symbol)) → (table : Table) →
      (table.predictAll entries).overwrites = [] → (p, symbol) ∈ entries →
        (table.predictAll entries).get? (.nonTerminal p.lhs) symbol = some (.predict p)
  | [], _, _, h => absurd h List.not_mem_nil
  | entry :: entries, table, hclean, h => by
      rcases List.mem_cons.mp h with rfl | h
      · refine get?_predictAll_of_get? entries _ hclean ?_
        rw [get?_predict, if_pos ⟨rfl, rfl⟩]
      · exact get?_predictAll_of_mem entries _ hclean h

/-! ## The table of a grammar -/

variable {g : Grammar} {sets : FirstFollow}

/-- A predictive table is made by entering all predictions of its grammar. -/
theorem predictive_eq_predictAll (g : Grammar) (sets : FirstFollow) :
    predictive g sets =
      (withRows .ll1 (g.terminals ++ [endMarker]) []
        (g.nonTerminals.map .nonTerminal)).predictAll (predictions g sets) := rfl

/-- A predictive table is for the predictive machine. -/
@[simp] theorem algorithm_predictive (g : Grammar) (sets : FirstFollow) :
    (predictive g sets).algorithm = .ll1 := by
  rw [predictive_eq_predictAll, algorithm_predictAll]
  rfl

/-- The rows of a predictive table are those of the non-terminals. -/
theorem keys_rows_predictive (g : Grammar) (sets : FirstFollow) :
    (predictive g sets).rows.keys = g.nonTerminals.map .nonTerminal := by
  have hnodup : (g.nonTerminals.map Row.nonTerminal).Nodup :=
    (nodup_distinct _).map fun _ _ => Row.nonTerminal.inj
  have hempty : (withRows .ll1 (g.terminals ++ [endMarker]) []
      (g.nonTerminals.map .nonTerminal)).rows.keys = g.nonTerminals.map .nonTerminal := by
    rw [withRows, OrderedMap.keys, OrderedMap.entries_ofList, List.map_map]
    · exact List.map_id _
    · rw [List.map_map]
      exact hnodup.map Function.injective_id
  rw [predictive_eq_predictAll, keys_rows_predictAll _ _ fun entry hentry => ?_, hempty]
  obtain ⟨p, hp, hmem⟩ := List.mem_flatMap.mp hentry
  obtain ⟨symbol, -, rfl⟩ := List.mem_map.mp hmem
  rw [hempty]
  exact List.mem_map_of_mem
    (Grammar.isNonTerminal_iff.mp (Grammar.isNonTerminal_lhs (Grammar.toRule_mem_rules hp)))

/-- The predictions of a grammar pair its productions with the symbols that they predict. -/
theorem mem_predictions {p : Production} {symbol : Symbol} :
    (p, symbol) ∈ predictions g sets ↔ p ∈ g.productions ∧ symbol ∈ predicted sets p := by
  rw [predictions, List.mem_flatMap]
  constructor
  · rintro ⟨q, hq, h⟩
    obtain ⟨s, hs, he⟩ := List.mem_map.mp h
    cases he
    exact ⟨hq, hs⟩
  · rintro ⟨hp, hs⟩
    exact ⟨p, hp, List.mem_map.mpr ⟨symbol, hs, rfl⟩⟩

/-- A cell holds a production for the non-terminal of its row that predicts the symbol of its
column. -/
theorem exists_of_get?_predictive {row : Row} {symbol : Symbol} {action : Action}
    (h : (predictive g sets).get? row symbol = some action) :
    ∃ p ∈ g.productions, symbol ∈ predicted sets p ∧ row = .nonTerminal p.lhs ∧
      action = .predict p := by
  rw [predictive_eq_predictAll] at h
  rcases mem_of_get?_predictAll _ _ h with h | ⟨p, hp, hrow, haction⟩
  · rw [get?_withRows] at h
    cases h
  · obtain ⟨hp, hs⟩ := mem_predictions.mp hp
    exact ⟨p, hp, hs, hrow, haction⟩

/-- In a table without overwritten cells a production is found under all that it predicts. -/
theorem get?_predictive_of_clean (hclean : (predictive g sets).overwrites = []) {p : Production}
    (hp : p ∈ g.productions) {symbol : Symbol} (hs : symbol ∈ predicted sets p) :
    (predictive g sets).get? (.nonTerminal p.lhs) symbol = some (.predict p) := by
  rw [predictive_eq_predictAll] at hclean ⊢
  exact get?_predictAll_of_mem _ _ hclean (mem_predictions.mpr ⟨hp, hs⟩)

/-- In a table without overwritten cells no two productions of a non-terminal predict a symbol. -/
theorem eq_of_mem_predicted (hclean : (predictive g sets).overwrites = []) {p q : Production}
    (hp : p ∈ g.productions) (hq : q ∈ g.productions) (hlhs : p.lhs = q.lhs) {symbol : Symbol}
    (hs : symbol ∈ predicted sets p) (hs' : symbol ∈ predicted sets q) : p = q := by
  have hcell := get?_predictive_of_clean hclean hp hs
  rw [hlhs, get?_predictive_of_clean hclean hq hs'] at hcell
  cases hcell
  rfl

end TableParsing.Table
