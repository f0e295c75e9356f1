import TableParsing.Proofs.Distinct
import TableParsing.Proofs.OrderedMap
import TableParsing.Table.ShiftReduce

/-!
# The cells of a table

A cell depends only on the actions that have been entered into it (`get?_addAll`): it holds the
different ones in the order of their first entries, but shifts before the others
(`Action.cellOf`). In particular an action is a choice of a cell iff it has been entered there
(`exists_choice_addAll_iff`), and in a table without conflicts every choice of a cell is the whole
cell (`get?_of_choice`). No choice is repeated, so a conflict has two different ones
(`nodup_alternatives_addAll`).

The conflicts of a table are the cells with two alternatives or more, and each is listed once
(`mem_conflicts_iff_alternatives`, `nodup_conflicts`). So a table has no conflicts iff none of its
cells is one (`conflicts_eq_nil_iff_not_conflictAt`).
-/

namespace TableParsing

/-! ## Actions in one cell -/

namespace Action

/-- The action with the given choices. -/
def ofList : List Action → Option Action
  | [] => none
  | a :: others => some (ofChoices a (a :: others))

/-- The cell into which some actions have been entered one after the other. -/
def cellOf (actions : List Action) : Option Action := ofList (shiftsFirst (distinct actions))

/-- An action is given by its choices. -/
theorem ofList_choices (a : Action) : ofList a.choices = some a := by
  cases a <;> rfl

/-- Actions that are no conflicts are the choices of the action that is made of them. -/
theorem choices_of_ofList {cell : Action} :
    (actions : List Action) → (∀ a ∈ actions, a.isConflict = false) →
      ofList actions = some cell → cell.choices = actions
  | [], _, h => by cases h
  | [a], hactions, h => by
      cases h
      have ha := hactions a List.mem_cons_self
      cases a with
      | conflict => cases ha
      | _ => rfl
  | a :: b :: others, _, h => by
      cases h
      rfl

/-- Shifts that have been moved to the front stay there. -/
theorem shiftsFirst_append (actions others : List Action) :
    shiftsFirst (shiftsFirst actions ++ others) = shiftsFirst (actions ++ others) := by
  simp [shiftsFirst, List.filter_append, List.filter_filter]

/-- The choices of a cell are the different actions entered into it, shifts first. -/
theorem choices_of_cellOf {actions : List Action} (h : ∀ a ∈ actions, a.isConflict = false)
    {cell : Action} (hcell : cellOf actions = some cell) :
    cell.choices = shiftsFirst (distinct actions) :=
  choices_of_ofList _ (fun a ha => h a (mem_distinct.mp (mem_shiftsFirst.mp ha))) hcell

/-- A cell is empty iff nothing has been entered. -/
theorem cellOf_eq_none_iff {actions : List Action} : cellOf actions = none ↔ actions = [] := by
  constructor
  · intro h
    rw [List.eq_nil_iff_forall_not_mem]
    intro a ha
    have hmem : a ∈ shiftsFirst (distinct actions) := mem_shiftsFirst.mpr (mem_distinct.mpr ha)
    obtain ⟨b, others, hcons⟩ := List.exists_cons_of_ne_nil (List.ne_nil_of_mem hmem)
    rw [cellOf, hcons] at h
    cases h
  · rintro rfl
    rfl

/-- Entering one more action. -/
theorem merge_cellOf {actions : List Action} {a : Action}
    (hactions : ∀ b ∈ actions, b.isConflict = false) (ha : a.isConflict = false) :
    some (merge (cellOf actions) a) = cellOf (actions ++ [a]) := by
  cases hcell : cellOf actions with
  | none =>
      rw [cellOf_eq_none_iff.mp hcell, List.nil_append]
      show some a = ofList (shiftsFirst [a])
      cases hs : a.isShift <;> simp [shiftsFirst, hs, ofList, ofChoices]
  | some old =>
      have hchoices := choices_of_cellOf hactions hcell
      have hmem : a ∈ old.choices ↔ a ∈ actions := by
        rw [hchoices, mem_shiftsFirst, mem_distinct]
      by_cases hold : a ∈ actions
      · rw [cellOf, distinct_append_singleton, if_pos hold, ← cellOf, hcell, merge,
          if_pos (Or.inr (hmem.mpr hold))]
      · have hnew : ¬ (old = a ∨ a ∈ old.choices) := by
          rintro (rfl | hc)
          · -- An action that is no conflict is its own choice.
            refine hold (hmem.mp ?_)
            cases old with
            | conflict => cases ha
            | _ => exact List.mem_cons_self
          · exact hold (hmem.mp hc)
        rw [← ofList_choices, merge_choices old a hnew, hchoices, shiftsFirst_append, cellOf,
          distinct_append_singleton, if_neg hold]

/-- Moving shifts to the front repeats nothing. -/
theorem nodup_shiftsFirst {actions : List Action} (h : actions.Nodup) :
    (shiftsFirst actions).Nodup :=
  (List.filter_append_perm isShift actions).nodup_iff.mpr h

/-- A conflict has two different choices, if none is repeated. -/
theorem exists_ne_of_isConflict {a : Action} (h : a.isConflict = true) (hnodup : a.choices.Nodup) :
    ∃ b ∈ a.choices, ∃ c ∈ a.choices, b ≠ c := by
  cases a with
  | conflict first second others =>
      have hne : first ∉ second :: others := (List.nodup_cons.mp hnodup).1
      refine ⟨first, List.mem_cons_self, second, List.mem_cons_of_mem _ List.mem_cons_self, ?_⟩
      rintro rfl
      exact hne List.mem_cons_self
  | _ => cases h

/-- The action that is executed is a choice. -/
theorem primary_mem_choices (a : Action) : a.primary ∈ a.choices :=
  List.mem_of_head? (head_choices a)

/-- An action that is no conflict is its only choice. -/
theorem choices_of_not_isConflict {a : Action} (h : a.isConflict = false) : a.choices = [a] := by
  cases a with
  | conflict => cases h
  | _ => rfl

/-- A conflict is an action with two choices or more. -/
theorem isConflict_iff {a : Action} : a.isConflict = true ↔ 2 ≤ a.choices.length := by
  cases a <;> simp [isConflict, choices]

end Action

/-! ## Cells of a table -/

namespace Table

/-- A table with empty rows has no cells. -/
theorem get?_withRows (algorithm : Algorithm) (actionHeaders gotoHeaders : List Symbol)
    (rows : List Row) (row : Row) (symbol : Symbol) :
    (withRows algorithm actionHeaders gotoHeaders rows).get? row symbol = none := by
  have hlookup := OrderedMap.lookup_map
    (fun _ : Row => (OrderedMap.empty : OrderedMap Symbol Action)) row rows.reverse
  unfold get? cells withRows
  simp only
  rw [OrderedMap.get?_ofList, ← List.map_reverse, hlookup]
  split <;> rfl

/-- Adding an action merges it into its cell. -/
theorem get?_add (table : Table) (row row' : Row) (symbol symbol' : Symbol) (action : Action) :
    (table.add row symbol action).get? row' symbol' =
      if row = row' ∧ symbol = symbol' then
        some (Action.merge (table.get? row symbol) action)
      else table.get? row' symbol' :=
  get?_set table row row' symbol symbol' _

/-- Adding actions does not change what the table is for. -/
theorem algorithm_addAll :
    (entries : List (Row × Symbol × Action)) → (table : Table) →
      (table.addAll entries).algorithm = table.algorithm
  | [], _ => rfl
  | entry :: entries, table =>
      algorithm_addAll entries (table.add entry.1 entry.2.1 entry.2.2)

/-- Adding actions adds no columns. -/
theorem headers_addAll :
    (entries : List (Row × Symbol × Action)) → (table : Table) →
      (table.addAll entries).actionHeaders = table.actionHeaders ∧
        (table.addAll entries).gotoHeaders = table.gotoHeaders
  | [], _ => ⟨rfl, rfl⟩
  | entry :: entries, table => headers_addAll entries (table.add entry.1 entry.2.1 entry.2.2)

/-- The actions that a list of entries has for a cell. -/
def actionsAt (entries : List (Row × Symbol × Action)) (row : Row) (symbol : Symbol) :
    List Action :=
  entries.filterMap fun entry =>
    if entry.1 = row ∧ entry.2.1 = symbol then some entry.2.2 else none

/-- The actions for a cell are those of its entries. -/
theorem mem_actionsAt {entries : List (Row × Symbol × Action)} {row : Row} {symbol : Symbol}
    {a : Action} : a ∈ actionsAt entries row symbol ↔ (row, symbol, a) ∈ entries := by
  rw [actionsAt, List.mem_filterMap]
  constructor
  · rintro ⟨⟨row', symbol', a'⟩, hmem, h⟩
    rw [Option.ite_none_right_eq_some] at h
    obtain ⟨⟨rfl, rfl⟩, ha⟩ := h
    cases ha
    exact hmem
  · intro h
    exact ⟨_, h, if_pos ⟨rfl, rfl⟩⟩

/-- Entries go on filling a cell. -/
theorem get?_addAll_of_get? {row : Row} {symbol : Symbol} :
    (entries : List (Row × Symbol × Action)) → (table : Table) → (actions : List Action) →
      table.get? row symbol = Action.cellOf actions →
      (∀ a ∈ actions, a.isConflict = false) →
      (∀ entry ∈ entries, entry.2.2.isConflict = false) →
        (addAll table entries).get? row symbol =
          Action.cellOf (actions ++ actionsAt entries row symbol)
  | [], _, actions, h, _, _ => by
      rw [actionsAt, List.filterMap_nil, List.append_nil]
      exact h
  | entry :: entries, table, actions, h, hactions, hentries => by
      have hentry := hentries entry List.mem_cons_self
      have hrest : ∀ e ∈ entries, e.2.2.isConflict = false := fun e he =>
        hentries e (List.mem_cons_of_mem _ he)
      have hadd := get?_add table entry.1 row entry.2.1 symbol entry.2.2
      show (addAll (table.add entry.1 entry.2.1 entry.2.2) entries).get? row symbol = _
      rw [actionsAt, List.filterMap_cons, ← actionsAt]
      split at hadd
      · next hcell =>
          obtain ⟨rfl, rfl⟩ := hcell
          rw [h, Action.merge_cellOf hactions hentry] at hadd
          have hactions' : ∀ a ∈ actions ++ [entry.2.2], a.isConflict = false := by
            intro a ha
            rcases List.mem_append.mp ha with ha | ha
            · exact hactions a ha
            · exact List.mem_singleton.mp ha ▸ hentry
          rw [if_pos ⟨rfl, rfl⟩, get?_addAll_of_get? entries _ _ hadd hactions' hrest,
            List.append_assoc]
          rfl
      · next hcell =>
          rw [if_neg hcell, get?_addAll_of_get? entries _ actions (hadd.trans h) hactions hrest]

/-- The cells after some entries into a table with empty cells. -/
theorem get?_addAll {table : Table} {row : Row} {symbol : Symbol}
    (hempty : table.get? row symbol = none) {entries : List (Row × Symbol × Action)}
    (hentries : ∀ entry ∈ entries, entry.2.2.isConflict = false) :
    (addAll table entries).get? row symbol = Action.cellOf (actionsAt entries row symbol) := by
  have h := get?_addAll_of_get? entries table [] hempty
    (fun a ha => absurd ha List.not_mem_nil) hentries
  rwa [List.nil_append] at h

/-- The actions in a cell by priority: none in an empty cell, and one if it is no conflict. -/
def alternatives (table : Table) (row : Row) (symbol : Symbol) : List Action :=
  ((table.get? row symbol).map Action.choices).getD []

/-- The alternatives of a filled cell are its choices. -/
theorem alternatives_of_get? {table : Table} {row : Row} {symbol : Symbol} {cell : Action}
    (h : table.get? row symbol = some cell) : table.alternatives row symbol = cell.choices := by
  rw [alternatives, h]
  rfl

/-- The alternatives of a cell are the choices in it. -/
theorem mem_alternatives_iff {table : Table} {row : Row} {symbol : Symbol} {a : Action} :
    a ∈ table.alternatives row symbol ↔
      ∃ cell, table.get? row symbol = some cell ∧ a ∈ cell.choices := by
  rw [alternatives]
  cases table.get? row symbol <;> simp

section filled

variable {table : Table} {row : Row} {symbol : Symbol} (hempty : table.get? row symbol = none)
  {entries : List (Row × Symbol × Action)}
  (hentries : ∀ entry ∈ entries, entry.2.2.isConflict = false)
include hempty hentries

/-- The alternatives of a cell are the different actions entered into it, shifts first. -/
theorem alternatives_addAll :
    (addAll table entries).alternatives row symbol =
      Action.shiftsFirst (distinct (actionsAt entries row symbol)) := by
  rw [alternatives, get?_addAll hempty hentries]
  cases hcell : Action.cellOf (actionsAt entries row symbol) with
  | none =>
      rw [Action.cellOf_eq_none_iff.mp hcell]
      rfl
  | some cell =>
      exact Action.choices_of_cellOf (fun b hb => hentries _ (mem_actionsAt.mp hb)) hcell

/-- An action is a choice of a cell iff it has been entered. -/
theorem exists_choice_addAll_iff {a : Action} :
    (∃ cell, (addAll table entries).get? row symbol = some cell ∧ a ∈ cell.choices) ↔
      (row, symbol, a) ∈ entries := by
  rw [← mem_alternatives_iff, alternatives_addAll hempty hentries, Action.mem_shiftsFirst,
    mem_distinct, mem_actionsAt]

/-- No alternative of a cell is repeated. -/
theorem nodup_alternatives_addAll : ((addAll table entries).alternatives row symbol).Nodup := by
  rw [alternatives_addAll hempty hentries]
  exact Action.nodup_shiftsFirst (nodup_distinct _)

end filled

/-! ## Conflicts -/

/-- A cell is found in its row. -/
theorem get?_eq_some_iff {table : Table} {row : Row} {symbol : Symbol} {cell : Action} :
    table.get? row symbol = some cell ↔
      ∃ cells, (row, cells) ∈ table.rows.entries ∧ (symbol, cell) ∈ cells.entries := by
  rw [get?, cells]
  constructor
  · intro h
    cases hrow : table.rows.get? row with
    | none =>
        rw [hrow] at h
        cases h
    | some cells =>
        rw [hrow] at h
        exact ⟨cells, OrderedMap.get?_eq_some_iff.mp hrow, OrderedMap.get?_eq_some_iff.mp h⟩
  · rintro ⟨cells, hrow, hcell⟩
    rw [OrderedMap.get?_eq_some_iff.mpr hrow]
    exact OrderedMap.get?_eq_some_iff.mpr hcell

/-- The conflicts of a row. -/
def conflictsIn (row : Row) (cells : OrderedMap Symbol Action) : List Conflict :=
  cells.entries.filterMap fun cell =>
    if cell.2.isConflict then some ⟨row, cell.1, cell.2.choices⟩ else none

/-- The conflicts of a table are those of its rows. -/
theorem conflicts_eq_flatMap (table : Table) :
    table.conflicts = table.rows.entries.flatMap fun entry => conflictsIn entry.1 entry.2 := rfl

/-- The conflicts of a row are its cells that are one. -/
theorem mem_conflictsIn_iff {row : Row} {cells : OrderedMap Symbol Action} {c : Conflict} :
    c ∈ conflictsIn row cells ↔
      ∃ cell, (c.symbol, cell) ∈ cells.entries ∧ cell.isConflict = true ∧
        c = ⟨row, c.symbol, cell.choices⟩ := by
  rw [conflictsIn, List.mem_filterMap]
  constructor
  · rintro ⟨⟨symbol, cell⟩, hcell, h⟩
    rw [Option.ite_none_right_eq_some] at h
    obtain ⟨hconflict, h⟩ := h
    cases h
    exact ⟨cell, hcell, hconflict, rfl⟩
  · rintro ⟨cell, hcell, hconflict, hc⟩
    refine ⟨(c.symbol, cell), hcell, ?_⟩
    rw [if_pos hconflict, ← hc]

/-- The conflicts of a table are its cells that are one, with their choices. -/
theorem mem_conflicts_iff {table : Table} {c : Conflict} :
    c ∈ table.conflicts ↔
      ∃ cell, table.get? c.row c.symbol = some cell ∧ cell.isConflict = true ∧
        c.actions = cell.choices := by
  rw [conflicts_eq_flatMap, List.mem_flatMap]
  constructor
  · rintro ⟨⟨row, cells⟩, hrow, hc⟩
    obtain ⟨cell, hcell, hconflict, hc⟩ := mem_conflictsIn_iff.mp hc
    refine ⟨cell, get?_eq_some_iff.mpr ⟨cells, ?_, hcell⟩, hconflict, congrArg Conflict.actions hc⟩
    rwa [show c.row = row from congrArg Conflict.row hc]
  · rintro ⟨cell, hget, hconflict, hactions⟩
    obtain ⟨cells, hrow, hcell⟩ := get?_eq_some_iff.mp hget
    refine ⟨_, hrow, mem_conflictsIn_iff.mpr ⟨cell, hcell, hconflict, ?_⟩⟩
    rw [← hactions]

/-- The conflicts of a table are the cells with two alternatives or more, with these. -/
theorem mem_conflicts_iff_alternatives {table : Table} {c : Conflict} :
    c ∈ table.conflicts ↔
      2 ≤ c.actions.length ∧ c.actions = table.alternatives c.row c.symbol := by
  rw [mem_conflicts_iff]
  constructor
  · rintro ⟨cell, hcell, hconflict, hactions⟩
    rw [alternatives_of_get? hcell, hactions, and_iff_left rfl]
    exact Action.isConflict_iff.mp hconflict
  · rintro ⟨hlength, hactions⟩
    rw [alternatives] at hactions
    cases hcell : table.get? c.row c.symbol with
    | none =>
        rw [hactions, hcell] at hlength
        exact absurd hlength (by decide)
    | some cell =>
        rw [hcell] at hactions
        rw [hactions] at hlength
        exact ⟨cell, rfl, Action.isConflict_iff.mpr hlength, hactions⟩

/-- No cell is listed twice as a conflict. -/
theorem nodup_conflicts (table : Table) :
    (table.conflicts.map fun c => (c.row, c.symbol)).Nodup := by
  rw [conflicts_eq_flatMap, List.map_flatMap, List.nodup_flatMap]
  constructor
  · -- The conflicts of a row are in different columns.
    rintro ⟨row, cells⟩ -
    rw [conflictsIn, List.map_filterMap]
    have hnodup : cells.entries.Pairwise fun x y => x.1 ≠ y.1 := List.pairwise_map.mp cells.nodup
    refine List.pairwise_filterMap.mpr (hnodup.imp ?_)
    rintro ⟨symbol, cell⟩ ⟨symbol', cell'⟩ hne key hkey key' hkey' rfl
    simp only [Option.map_eq_some_iff, Option.ite_none_right_eq_some, Option.some.injEq] at hkey hkey'
    obtain ⟨_, ⟨-, rfl⟩, rfl⟩ := hkey
    obtain ⟨_, ⟨-, rfl⟩, heq⟩ := hkey'
    exact hne (congrArg Prod.snd heq).symm
  · have hnodup : table.rows.entries.Pairwise fun x y => x.1 ≠ y.1 :=
      List.pairwise_map.mp table.rows.nodup
    refine hnodup.imp ?_
    rintro ⟨row, cells⟩ ⟨row', cells'⟩ hne key hkey hkey'
    obtain ⟨c, hc, rfl⟩ := List.mem_map.mp hkey
    obtain ⟨c', hc', heq⟩ := List.mem_map.mp hkey'
    obtain ⟨_, -, -, hrow⟩ := mem_conflictsIn_iff.mp hc
    obtain ⟨_, -, -, hrow'⟩ := mem_conflictsIn_iff.mp hc'
    have hrows : row = row' :=
      calc
        row = c.row := (congrArg Conflict.row hrow).symm
        _ = c'.row := (congrArg Prod.fst heq).symm
        _ = row' := congrArg Conflict.row hrow'
    exact hne hrows

/-- A cell is a conflict. -/
def ConflictAt (table : Table) (row : Row) (symbol : Symbol) : Prop :=
  ∃ cell, table.get? row symbol = some cell ∧ cell.isConflict = true

/-- A table has no conflicts iff none of its cells is one. -/
theorem conflicts_eq_nil_iff_not_conflictAt {table : Table} :
    table.conflicts = [] ↔ ∀ row symbol, ¬ table.ConflictAt row symbol := by
  rw [List.eq_nil_iff_forall_not_mem]
  constructor
  · rintro h row symbol ⟨cell, hcell, hconflict⟩
    exact h ⟨row, symbol, cell.choices⟩ (mem_conflicts_iff.mpr ⟨cell, hcell, hconflict, rfl⟩)
  · intro h c hc
    obtain ⟨cell, hcell, hconflict, -⟩ := mem_conflicts_iff.mp hc
    exact h _ _ ⟨cell, hcell, hconflict⟩

/-- A table without conflicts has no cell that is one. -/
theorem not_isConflict_of_conflicts_eq_nil {table : Table} (h : table.conflicts = []) {row : Row}
    {symbol : Symbol} {cell : Action} (hcell : table.get? row symbol = some cell) :
    cell.isConflict = false := by
  rw [← Bool.not_eq_true]
  exact fun hconflict =>
    conflicts_eq_nil_iff_not_conflictAt.mp h row symbol ⟨cell, hcell, hconflict⟩

/-- Where a table without conflicts has an action for a choice, that is its cell. -/
theorem get?_of_choice {table : Table} (h : table.conflicts = []) {row : Row} {symbol : Symbol}
    {cell a : Action} (hcell : table.get? row symbol = some cell) (ha : a ∈ cell.choices) :
    table.get? row symbol = some a := by
  rw [Action.choices_of_not_isConflict (not_isConflict_of_conflicts_eq_nil h hcell),
    List.mem_singleton] at ha
  rw [hcell, ha]

end Table

end TableParsing
