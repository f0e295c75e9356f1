import TableParsing.Text.Blank
import TableParsing.Text.Lines
import TableParsing.Text.Half
import TableParsing.Text.Hexadecimal
import TableParsing.Text.Visible
import TableParsing.Text.Quoted
import TableParsing.Text.Integer
import TableParsing.Decimal.Basic
import TableParsing.Decimal.Nearest
import TableParsing.Json
import TableParsing.Json.Literal
import TableParsing.Json.Printer
import TableParsing.Json.Parser
import TableParsing.Json.Encoding
import TableParsing.Symbol
import TableParsing.SymbolSet
import TableParsing.OrderedMap
import TableParsing.Distinct
import TableParsing.Grammar.Basic
import TableParsing.Grammar.Reader
import TableParsing.Grammar.Samples
import TableParsing.Algorithm
import TableParsing.Failure
import TableParsing.History
import TableParsing.FirstFollow.Basic
import TableParsing.FirstFollow.Saturation
import TableParsing.Item.Basic
import TableParsing.Item.Closure
import TableParsing.State
import TableParsing.Action
import TableParsing.Table.Basic
import TableParsing.Table.Predictive
import TableParsing.Table.ShiftReduce
import TableParsing.Collection
import TableParsing.Tree
import TableParsing.Machine.Basic
import TableParsing.Machine.Predictive
import TableParsing.Machine.ShiftReduce
import TableParsing.Simulation
import TableParsing.Notice
import TableParsing.Analysis
import TableParsing.Report.Grammar
import TableParsing.Report.Table
import TableParsing.Report.Parse
import TableParsing.Report.Analysis
import TableParsing.Service.Target
import TableParsing.Service.Route
import TableParsing.Service
import TableParsing.Proofs.Text.Pieces
import TableParsing.Proofs.Grammar.Written
import TableParsing.Proofs.Grammar.Symbols
import TableParsing.Proofs.Grammar.Joined
import TableParsing.Proofs.Grammar.RoundTrip
import TableParsing.Proofs.Grammar.Augmented
import TableParsing.Proofs.Distinct
import TableParsing.Proofs.Grammar.WellFormed
import TableParsing.Proofs.Grammar.SameRules
import TableParsing.Proofs.OrderedMap
import TableParsing.Proofs.History
import TableParsing.Proofs.SymbolSet
import TableParsing.Proofs.Derivation
import TableParsing.Proofs.Tree
import TableParsing.Proofs.Tree.Fill
import TableParsing.Proofs.Derivation.Tree
import TableParsing.Proofs.Derivation.Rightmost
import TableParsing.Proofs.FirstFollow.Growth
import TableParsing.Proofs.FirstFollow.Range
import TableParsing.Proofs.FirstFollow.Replay
import TableParsing.Proofs.FirstFollow.Passes
import TableParsing.Proofs.FirstFollow.Lookahead
import TableParsing.Proofs.FirstFollow.Soundness
import TableParsing.Proofs.FirstFollow.SameRules
import TableParsing.Proofs.Item.Places
import TableParsing.Proofs.Item.Closure
import TableParsing.Proofs.Item.Least
import TableParsing.Proofs.Item.Halting
import TableParsing.Proofs.Collection.Construction
import TableParsing.Proofs.Collection.Items
import TableParsing.Proofs.Collection.Processing
import TableParsing.Proofs.Collection.Automaton
import TableParsing.Proofs.Collection.Paths
import TableParsing.Proofs.Table.Cells
import TableParsing.Proofs.Table.Merging
import TableParsing.Proofs.Table.Predictive
import TableParsing.Proofs.Table.Overwrites
import TableParsing.Proofs.Table.ShiftReduce
import TableParsing.Proofs.Table.Priority
import TableParsing.Proofs.Collection.Built
import TableParsing.Proofs.Collection.Validity
import TableParsing.Proofs.Collection.Conflicts
import TableParsing.Proofs.Collection.Canonical
import TableParsing.Proofs.Collection.Replay
import TableParsing.Proofs.Collection.Halting
import TableParsing.Proofs.Collection.Numbers
import TableParsing.Proofs.Collection.Follow
import TableParsing.Proofs.Collection.Cores
import TableParsing.Proofs.Collection.SameRules
import TableParsing.Proofs.Collection.Hierarchy
import TableParsing.Proofs.Collection.Refinement
import TableParsing.Proofs.Collection.ItemPaths
import TableParsing.Proofs.Collection.Predictive
import TableParsing.Proofs.Machine.Run
import TableParsing.Proofs.Machine.Records
import TableParsing.Proofs.Machine.Limit
import TableParsing.Proofs.Machine.Reading
import TableParsing.Proofs.Machine.Halting
import TableParsing.Proofs.Machine.Follow
import TableParsing.Proofs.Predictive.Step
import TableParsing.Proofs.Predictive.Leftmost
import TableParsing.Proofs.Predictive.Completeness
import TableParsing.Proofs.Predictive.Termination
import TableParsing.Proofs.ShiftReduce.Step
import TableParsing.Proofs.ShiftReduce.Stacks
import TableParsing.Proofs.ShiftReduce.Soundness
import TableParsing.Proofs.ShiftReduce.Completeness
import TableParsing.Proofs.Derivation.Sentences
import TableParsing.Proofs.Simulation.Safety
import TableParsing.Proofs.Simulation.ErrorPosition
import TableParsing.Proofs.Simulation.Consistency
import TableParsing.Proofs.Simulation.Limit
import TableParsing.Proofs.Simulation.EndSymbol
import TableParsing.Proofs.Simulation.Relabel
import TableParsing.Proofs.Simulation.FreshEnd
import TableParsing.Proofs.ShiftReduce.Termination
import TableParsing.Proofs.Analysis.Transparency
import TableParsing.Proofs.Analysis.Lookups
import TableParsing.Proofs.FirstFollow.Exactness
import TableParsing.Proofs.Service.Status
import TableParsing.Proofs.Collection.Alternatives
