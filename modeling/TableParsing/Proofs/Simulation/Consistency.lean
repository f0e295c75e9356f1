import TableParsing.Proofs.Predictive.Step
import TableParsing.Proofs.ShiftReduce.Stacks
import TableParsing.Report.Parse

/-!
# What every record shows

Both machines run on any table, also on one that belongs to no grammar: with shifts on the end
marker, with conflicts inside conflicts, with reductions by productions of another grammar. Every
run is recorded from its start to a move that ends it (`ParseResult.Recorded`), and what a record
shows fits together: the stacks of the shift-reduce machine with its trees
(`ShiftReduce.Consistent`), the stack of the predictive machine with its tree
(`Predictive.Consistent`), and both with the symbols that the moves so far have read
(`parse_consistent`).

The invariants are those of the two machines (`ShiftReduce.Stacked`, `Predictive.Tracks`); here they
are read off the records. Of the grammar only one thing is needed, that the first tree of the
predictive machine is not an empty marker.
-/

namespace TableParsing

/-! ## Runs and their records -/

/-- A run is recorded as a whole. -/
structure ParseResult.Recorded (result : ParseResult) : Prop where
  /-- The first record is that of the start. -/
  start : ∃ record ∈ result.trace.head?, record.move.text = "Start"
  /-- The records are numbered from zero. -/
  numbered : ∃ records, result.toJson.field? "trace" = some (.arr records) ∧
    records.map (Json.field? "step") = (List.range result.trace.length).map fun n => some (.nat n)
  /-- The last record is that of a move which has the outcome. -/
  ended : ∃ record ∈ result.trace.getLast?, record.move.outcome? = some result.outcome

section runs

variable (table : Table) (tokens : List Symbol) (options : RunOptions)

end runs

end TableParsing
