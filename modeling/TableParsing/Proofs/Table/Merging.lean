import TableParsing.Proofs.Table.Cells

/-!
# The form of merged cells

Whatever actions are added to a table without rows, and in whatever order of the cells, each cell is
given by the different actions that have been added to it, in the order of their first additions
(`Action.IsCell`): it is empty if there are none, holds the action if there is one, and else is a
conflict of the shifts and then the others. Additions to other cells do not matter
(`get?_addAll_eq_filter`). So a conflict never holds a conflict, and what is executed is a shift iff
one has been added (`Action.IsCell.isShift_primary_iff`).

The conflicts that the table lists are the cells with two different actions or more
(`mem_conflicts_addAll_iff`), and their kind tells whether a shift is among them.
-/

namespace TableParsing

/-! ## One cell -/

namespace Action

/-- What a cell holds when the given actions, which are different, have been added to it in their
order. -/
inductive IsCell : List Action → Option Action → Prop
  /-- Nothing has been added. -/
  | empty : IsCell [] none
  /-- One action is the cell. -/
  | single (a : Action) : IsCell [a] (some a)
  /-- Several actions are in conflict, the shifts before the others. -/
  | conflict {actions : List Action} {first second : Action} {others : List Action}
      (h : first :: second :: others =
        actions.filter isShift ++ actions.filter fun a => !a.isShift) :
      IsCell actions (some (.conflict first second others))

/-- A list of actions makes up a cell. -/
theorem isCell_ofList : (actions : List Action) → IsCell actions (ofList (shiftsFirst actions))
  | [] => .empty
  | [a] => by
      have hfirst : shiftsFirst [a] = [a] := by
        cases hs : a.isShift <;> simp [shiftsFirst, hs]
      rw [hfirst]
      exact .single a
  | a :: b :: actions => by
      have hlength : (shiftsFirst (a :: b :: actions)).length = actions.length + 2 :=
        length_shiftsFirst _
      rcases hfirst : shiftsFirst (a :: b :: actions) with _ | ⟨first, _ | ⟨second, others⟩⟩
      · simp [hfirst] at hlength
      · simp [hfirst] at hlength
      · exact .conflict hfirst.symm

/-- The cell into which some actions have been entered is made up of the different ones. -/
theorem isCell_cellOf (actions : List Action) : IsCell (distinct actions) (cellOf actions) :=
  isCell_ofList (distinct actions)

/-- What is executed in a cell is a shift iff there is one among its actions. -/
theorem IsCell.isShift_primary_iff {actions : List Action} {cell : Action}
    (hplain : ∀ a ∈ actions, a.isConflict = false) (h : IsCell actions (some cell)) :
    cell.primary.isShift = true ↔ ∃ a ∈ actions, a.isShift = true := by
  cases h with
  | single =>
      have hprimary : cell.primary = cell := by
        have hcell := hplain cell List.mem_cons_self
        cases cell with
        | conflict => cases hcell
        | _ => rfl
      simp [hprimary]
  | @conflict _ first second others hsplit =>
      show first.isShift = true ↔ _
      constructor
      · intro hfirst
        have hmem : first ∈ shiftsFirst actions := by
          rw [shiftsFirst, ← hsplit]
          exact List.mem_cons_self
        exact ⟨first, mem_shiftsFirst.mp hmem, hfirst⟩
      · rintro ⟨a, ha, hshift⟩
        -- The shifts are not empty, so the first alternative is one of them.
        have hmem : a ∈ actions.filter isShift := List.mem_filter.mpr ⟨ha, hshift⟩
        obtain ⟨b, shifts, hshifts⟩ := List.exists_cons_of_ne_nil (List.ne_nil_of_mem hmem)
        rw [hshifts, List.cons_append] at hsplit
        have hfirst : first ∈ actions.filter isShift := by
          rw [hshifts, (List.cons.inj hsplit).1]
          exact List.mem_cons_self
        exact (List.mem_filter.mp hfirst).2

end Action

/-! ## The cells of a table -/

namespace Table

/-- The additions to one cell. -/
def additionsTo (entries : List (Row × Symbol × Action)) (row : Row) (symbol : Symbol) :
    List (Row × Symbol × Action) :=
  entries.filter fun entry => entry.1 = row ∧ entry.2.1 = symbol

/-- The actions for a cell are those of the additions to it. -/
theorem actionsAt_additionsTo (entries : List (Row × Symbol × Action)) (row : Row)
    (symbol : Symbol) :
    actionsAt (additionsTo entries row symbol) row symbol = actionsAt entries row symbol := by
  rw [additionsTo, actionsAt, List.filterMap_filter, actionsAt]
  apply List.filterMap_congr
  intro entry _
  by_cases h : entry.1 = row ∧ entry.2.1 = symbol <;> simp [h]

section added

variable {table : Table} (hempty : ∀ row symbol, table.get? row symbol = none)
  {entries : List (Row × Symbol × Action)}
  (hentries : ∀ entry ∈ entries, entry.2.2.isConflict = false)
include hempty hentries

/-- A cell depends only on the additions to it. -/
theorem get?_addAll_eq_filter (row : Row) (symbol : Symbol) :
    (table.addAll entries).get? row symbol =
      (table.addAll (additionsTo entries row symbol)).get? row symbol := by
  have hown : ∀ entry ∈ additionsTo entries row symbol, entry.2.2.isConflict = false :=
    fun entry hentry => hentries entry (List.mem_of_mem_filter hentry)
  rw [get?_addAll (hempty row symbol) hentries, get?_addAll (hempty row symbol) hown,
    actionsAt_additionsTo]

/-- The alternatives of a cell are no conflicts. -/
theorem not_isConflict_of_mem_alternatives {row : Row} {symbol : Symbol} {a : Action}
    (ha : a ∈ (table.addAll entries).alternatives row symbol) : a.isConflict = false := by
  rw [alternatives_addAll (hempty row symbol) hentries, Action.mem_shiftsFirst, mem_distinct,
    mem_actionsAt] at ha
  exact hentries _ ha

/-- The conflicts are the cells to which two different actions or more have been added. -/
theorem mem_conflicts_addAll_iff {c : Conflict} :
    c ∈ (table.addAll entries).conflicts ↔
      2 ≤ (distinct (actionsAt entries c.row c.symbol)).length ∧
        c.actions = Action.shiftsFirst (distinct (actionsAt entries c.row c.symbol)) := by
  rw [mem_conflicts_iff_alternatives, alternatives_addAll (hempty c.row c.symbol) hentries]
  constructor
  · rintro ⟨hlength, hactions⟩
    rw [hactions, Action.length_shiftsFirst] at hlength
    exact ⟨hlength, hactions⟩
  · rintro ⟨hlength, hactions⟩
    rw [hactions, Action.length_shiftsFirst]
    exact ⟨hlength, rfl⟩

/-- A conflict has a shift among its actions iff one has been added to its cell. -/
theorem exists_isShift_iff_of_mem_conflicts {c : Conflict}
    (hc : c ∈ (table.addAll entries).conflicts) :
    (∃ a ∈ c.actions, a.isShift = true) ↔
      ∃ a, (c.row, c.symbol, a) ∈ entries ∧ a.isShift = true := by
  rw [((mem_conflicts_addAll_iff hempty hentries).mp hc).2]
  simp only [Action.mem_shiftsFirst, mem_distinct, mem_actionsAt]

end added

/-! ## All additions -/

/-- What a table holds after some additions. -/
structure Merged (entries : List (Row × Symbol × Action)) (table : Table) : Prop where
  /-- A cell is given by the different actions added to it, in the order of their first additions. -/
  isCell : ∀ row symbol,
    Action.IsCell (distinct (actionsAt entries row symbol)) (table.get? row symbol)
  /-- No conflict is an alternative of a cell. -/
  plain : ∀ row symbol, ∀ a ∈ table.alternatives row symbol, a.isConflict = false
  /-- No alternative of a cell is repeated. -/
  nodup : ∀ row symbol, (table.alternatives row symbol).Nodup
  /-- What is executed is a shift iff one has been added. -/
  primary : ∀ row symbol cell, table.get? row symbol = some cell →
    (cell.primary.isShift = true ↔ ∃ a, (row, symbol, a) ∈ entries ∧ a.isShift = true)
  /-- The conflicts are the cells to which two different actions or more have been added, with their
  alternatives. -/
  mem_conflicts_iff : ∀ c, c ∈ table.conflicts ↔
    2 ≤ (distinct (actionsAt entries c.row c.symbol)).length ∧
      c.actions = table.alternatives c.row c.symbol
  /-- No cell is listed twice as a conflict. -/
  nodup_conflicts : (table.conflicts.map fun c => (c.row, c.symbol)).Nodup
  /-- A conflict is one of a shift with something else iff a shift has been added to its cell. -/
  kind_eq : ∀ c ∈ table.conflicts,
    ((∃ a, (c.row, c.symbol, a) ∈ entries ∧ a.isShift = true) ∧ c.kind = "shift/reduce") ∨
      ((∀ a, (c.row, c.symbol, a) ∈ entries → a.isShift = false) ∧ c.kind = "reduce/reduce")

/-- After any additions to a table without rows, every cell has its form, and the conflicts are those
of the cells. A cell is what it would be without the additions to other cells. -/
theorem merged_addAll (algorithm : Algorithm) (actionHeaders gotoHeaders : List Symbol)
    {entries : List (Row × Symbol × Action)}
    (hentries : ∀ entry ∈ entries, entry.2.2.isConflict = false) :
    Merged entries ((empty algorithm actionHeaders gotoHeaders).addAll entries) ∧
    ∀ row symbol,
      ((empty algorithm actionHeaders gotoHeaders).addAll entries).get? row symbol =
        ((empty algorithm actionHeaders gotoHeaders).addAll
          (additionsTo entries row symbol)).get? row symbol := by
  have hempty : ∀ row symbol, (empty algorithm actionHeaders gotoHeaders).get? row symbol = none :=
    fun _ _ => rfl
  have hcell : ∀ row symbol, Action.IsCell (distinct (actionsAt entries row symbol))
      (((empty algorithm actionHeaders gotoHeaders).addAll entries).get? row symbol) := by
    intro row symbol
    rw [get?_addAll (hempty row symbol) hentries]
    exact Action.isCell_cellOf _
  refine ⟨⟨hcell, ?_, ?_, ?_, ?_, nodup_conflicts _, ?_⟩,
    get?_addAll_eq_filter hempty hentries⟩
  · intro row symbol a ha
    exact not_isConflict_of_mem_alternatives hempty hentries ha
  · intro row symbol
    exact nodup_alternatives_addAll (hempty row symbol) hentries
  · intro row symbol cell hget
    have hplain : ∀ a ∈ distinct (actionsAt entries row symbol), a.isConflict = false :=
      fun a ha => hentries _ (mem_actionsAt.mp (mem_distinct.mp ha))
    have hiscell := hcell row symbol
    rw [hget] at hiscell
    simpa only [mem_distinct, mem_actionsAt] using hiscell.isShift_primary_iff hplain
  · intro c
    rw [mem_conflicts_addAll_iff hempty hentries,
      alternatives_addAll (hempty c.row c.symbol) hentries]
  · intro c hc
    have hshift := exists_isShift_iff_of_mem_conflicts hempty hentries hc
    by_cases h : ∃ a ∈ c.actions, a.isShift = true
    · exact Or.inl ⟨hshift.mp h, if_pos (List.any_eq_true.mpr h)⟩
    · refine Or.inr ⟨fun a ha => ?_, if_neg fun hany => h (List.any_eq_true.mp hany)⟩
      rw [← Bool.not_eq_true]
      exact fun ha' => h (hshift.mpr ⟨a, ha, ha'⟩)

/-- Additions to two cells in turn. The shift comes last and is executed, and the repeated reduction
counts once. -/
theorem merged_addAll_turns :
    ∃ (first second : Production) (entries : List (Row × Symbol × Action)),
      entries = [(.state 4, "a", .reduce first), (.state 4, "b", .shift 2),
        (.state 4, "a", .reduce second), (.state 4, "b", .shift 2),
        (.state 4, "a", .reduce first), (.state 4, "a", .shift 3)] ∧
      (∀ entry ∈ entries, entry.2.2.isConflict = false) ∧
      Merged entries ((empty .lr0 ["a", "b"] []).addAll entries) ∧
      ((empty .lr0 ["a", "b"] []).addAll entries).get? (.state 4) "a" =
        some (.conflict (.shift 3) (.reduce first) [.reduce second]) ∧
      ((empty .lr0 ["a", "b"] []).addAll entries).get? (.state 4) "b" = some (.shift 2) ∧
      ((empty .lr0 ["a", "b"] []).addAll entries).conflicts.map Conflict.text =
        ["shift/reduce conflict in state 4 on symbol 'a': s3 vs r(A -> a) vs r(B -> a)"] := by
  have hentries : ∀ entry ∈ ([(.state 4, "a", .reduce ⟨⟨"A", ["a"]⟩, 0⟩), (.state 4, "b", .shift 2),
      (.state 4, "a", .reduce ⟨⟨"B", ["a"]⟩, 1⟩), (.state 4, "b", .shift 2),
      (.state 4, "a", .reduce ⟨⟨"A", ["a"]⟩, 0⟩), (.state 4, "a", .shift 3)] :
        List (Row × Symbol × Action)), entry.2.2.isConflict = false := by decide
  exact ⟨_, _, _, rfl, hentries, (merged_addAll .lr0 ["a", "b"] [] hentries).1,
    by decide +kernel, by decide +kernel, by decide +kernel⟩

end Table

end TableParsing
