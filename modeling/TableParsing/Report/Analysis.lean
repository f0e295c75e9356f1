import TableParsing.Analysis
import TableParsing.Report.Parse
import TableParsing.Report.Table

/-!
# Answers of an analysis as JSON
-/

namespace TableParsing.Analysis

/-- An answer. -/
def Answer.toJson : Answer → Json
  | .grammar g => g.toJson
  | .sets s => s.toJson
  | .predictive t => t.toJson
  | .collection c => c.toJson
  | .table t => t.toJson
  | .result r => r.toJson
  | .everything g s t cs =>
    .obj [("grammar", g.toJson), ("first_follow", s.toJson), ("ll1_table", t.toJson),
      ("lr", .obj (cs.map fun c => (c.algorithm.name, c.toJson)))]

end TableParsing.Analysis
