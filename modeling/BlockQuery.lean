import BlockQuery.Block.Document
import BlockQuery.Catalog.Document
import BlockQuery.Engine.Definition
import BlockQuery.Main
import BlockQuery.RowFile.Document
import BlockQuery.Terse.Lookup
import BlockQuery.Terse.Plan
import BlockQuery.Proofs.Disk.Entries
import BlockQuery.Proofs.Row.Codec
import BlockQuery.Proofs.Row.Endings
import BlockQuery.Proofs.Row.Calls
import BlockQuery.Proofs.Row.Delimited
import BlockQuery.Proofs.Disk.Directories
import BlockQuery.Proofs.RowSource.Yield
import BlockQuery.Proofs.RowSource.Join
import BlockQuery.Proofs.RowFile.Records
import BlockQuery.Proofs.RowFile.Append
import BlockQuery.Proofs.Plan.Relation
import BlockQuery.Proofs.Block.Order
import BlockQuery.Proofs.MasterPlan.Accepted
import BlockQuery.Proofs.MasterPlan.Partition
import BlockQuery.Proofs.Execution.BlockOutput
import BlockQuery.Proofs.Engine.OutputFiles
import BlockQuery.Proofs.Engine.Run
import BlockQuery.Proofs.Engine.Answer
import BlockQuery.Proofs.Row.Order
import BlockQuery.Proofs.Index.Entries
import BlockQuery.Proofs.Index.Scan
import BlockQuery.Proofs.Row.Columns
import BlockQuery.Proofs.Index.Header
import BlockQuery.Proofs.Index.Opening
import BlockQuery.Proofs.Index.Lookup
import BlockQuery.Proofs.Float8.Rounding
import BlockQuery.Proofs.Index.Building
import BlockQuery.Proofs.Expr.Conjuncts
import BlockQuery.Proofs.Operator.IndexChoice
import BlockQuery.Proofs.RowFile.Located
import BlockQuery.Proofs.Operator.IndexScan
import BlockQuery.Proofs.Index.LongNames
import BlockQuery.Proofs.Operator.ColumnIndex
import BlockQuery.Proofs.Operator.NumericKeys
import BlockQuery.Proofs.Block.Cycles
import BlockQuery.Proofs.MasterPlan.Validity
import BlockQuery.Proofs.Checksum
import BlockQuery.Proofs.Row.Prefix
import BlockQuery.Proofs.RowFile.Damage
import BlockQuery.Proofs.Index.Damage
import BlockQuery.Proofs.Plan.Width
import BlockQuery.Proofs.MasterPlan.Improvement
import BlockQuery.Proofs.Engine.Improvement
import BlockQuery.Proofs.Operator.TypedKeys
import BlockQuery.Proofs.Disk.DataFiles
import BlockQuery.Proofs.Catalog.Entries
import BlockQuery.Proofs.Engine.Statements
import BlockQuery.Proofs.Engine.Success
import BlockQuery.Proofs.Engine.Transparency
import BlockQuery.Proofs.MasterPlan.Emission
import BlockQuery.Proofs.MasterPlan.Lossless
import BlockQuery.Proofs.MasterPlan.Contraction
import BlockQuery.Proofs.MasterPlan.Fixpoint
import BlockQuery.Proofs.Engine.Scheduling
import BlockQuery.Proofs.Engine.Resubmission
import BlockQuery.Proofs.RowFile.Positions
import BlockQuery.Proofs.Engine.Reordering
import BlockQuery.Proofs.Expr.Document
import BlockQuery.Proofs.Plan.Document
import BlockQuery.Proofs.Row.Preorder
import BlockQuery.Proofs.Disk.Places
import BlockQuery.Proofs.Engine.Frame
import BlockQuery.Proofs.Disk.Changes
import BlockQuery.Proofs.Engine.Definitions
import BlockQuery.Proofs.Engine.CurrentIndexes
import BlockQuery.Proofs.Catalog.Maps
import BlockQuery.Proofs.Index.Find
import BlockQuery.Proofs.Index.Safety
import BlockQuery.Proofs.Expr.Types
import BlockQuery.Proofs.RowFile.Stored
import BlockQuery.Proofs.Index.Listed
import BlockQuery.Proofs.RowSource.Reachable
import BlockQuery.Proofs.RowSource.StoredRows
import BlockQuery.Proofs.RowSource.GroupTypes
import BlockQuery.Proofs.Operator.Types
import BlockQuery.Proofs.Plan.Types
import BlockQuery.Proofs.RowFile.Straying
import BlockQuery.Proofs.RowFile.Represented
import BlockQuery.Proofs.Index.Overflow
import BlockQuery.Proofs.Index.Reopening
import BlockQuery.Proofs.RowSource.Outcome
import BlockQuery.Proofs.RowSource.Pairs
import BlockQuery.Proofs.RowSource.Replay
import BlockQuery.Proofs.Operator.Replay
import BlockQuery.Proofs.RowSource.Accumulation
import BlockQuery.Proofs.RowSource.Grouping
import BlockQuery.Proofs.Operator.Grouping
import BlockQuery.Proofs.RowSource.SumOrder
import BlockQuery.Proofs.RowSource.InputOrder
import BlockQuery.Proofs.RowSource.Sorting
import BlockQuery.Proofs.Expr.JoinKeys
import BlockQuery.Proofs.MasterPlan.Resolution
import BlockQuery.Proofs.MasterPlan.Joins
import BlockQuery.Proofs.MasterPlan.Broadcast
import BlockQuery.Proofs.Expr.Arithmetic
import BlockQuery.Proofs.Expr.Patterns
import BlockQuery.Proofs.Engine.Settlement
import BlockQuery.Proofs.Engine.Rounds
