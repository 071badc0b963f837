import BlockQuery.Execution.Context
import BlockQuery.Plan.Builder
import BlockQuery.RowSource.Aggregate
import BlockQuery.RowSource.Filter
import BlockQuery.RowSource.IndexScan
import BlockQuery.RowSource.Join
import BlockQuery.RowSource.Scan
import BlockQuery.RowSource.Sort
import BlockQuery.RowSource

/-!
# Operators

An operator tree is what a plan becomes before it runs: every column name is
looked up, and every scan knows its files.  The operators are data; `source`
gives the rows that a tree yields on a disk.
-/

namespace BlockQuery

inductive Operator where
  | values (schema : Schema) (rows : List Row)
  | seqScan (scan : SeqScan)
  | indexScan (scan : IndexScan)
  | filter (predicate : BoundExpr) (child : Operator)
  | project (targets : List BoundExpr) (schema : Schema) (child : Operator)
  | join (type : JoinType) (condition : Option BoundExpr) (left right : Operator)
  | sort (order : RowOrder) (child : Operator)
  | aggregate (keys : List Nat) (aggregates : List BoundAggregate) (schema : Schema)
      (child : Operator)
deriving Repr

namespace Operator

def name : Operator → String
  | values .. => "Values"
  | seqScan _ => "SeqScan"
  | indexScan _ => "IndexScan"
  | filter .. => "Filter"
  | project .. => "Project"
  | join .. => "NestedLoopJoin"
  | sort .. => "Sort"
  | aggregate .. => "HashAggregate"

/-- The columns of the rows that an operator yields. -/
def schema : Operator → Schema
  | values schema _ => schema
  | seqScan scan => scan.outputSchema
  | indexScan scan => scan.schema
  | filter _ child => child.schema
  | project _ schema _ => schema
  | join _ _ left right => left.schema ++ right.schema
  | sort _ child => child.schema
  | aggregate _ _ schema _ => schema

/-- The rows that an operator yields. -/
def source (disk : Disk) : Operator → RowSource
  | values _ rows => .values rows
  | seqScan scan => .seqScan disk scan
  | indexScan scan => .indexScan disk scan
  | filter predicate child => (child.source disk).filter predicate
  | project targets _ child => (child.source disk).project targets
  | join type condition left right =>
    .join type condition right.schema.length (left.source disk) (right.source disk)
  | sort order child => (child.source disk).sort order
  | aggregate keys aggregates _ child => .aggregate keys aggregates (child.source disk)

/-! ## Operators on named columns -/

/-- An expression with its columns looked up in the rows of an operator. -/
def bound (child : Operator) (e : Expr) : Except ExecError BoundExpr :=
  (e.bind child.schema).mapError .ofBind

def filtering (child : Operator) (predicate : Expr) : Except ExecError Operator :=
  (child.bound predicate).map (filter · child)

def projecting (child : Operator) (targets : List Target) : Except ExecError Operator := do
  let exprs ← targets.mapM fun t => child.bound t.expr
  return project exprs (targets.map fun t => ⟨t.name, t.type⟩) child

def joining (type : JoinType) (left right : Operator) (condition : Option Expr) :
    Except ExecError Operator :=
  match condition with
  | none => .ok (join type none left right)
  | some e =>
    match e.bind (left.schema ++ right.schema) with
    | .error fault => .error (.ofBind fault)
    | .ok b => .ok (join type (some b) left right)

def sorting (child : Operator) (specs : List SortSpec) : Except ExecError Operator :=
  match RowOrder.ofSpecs child.schema specs with
  | .error e => .error (.invalidPlan (.lookup e))
  | .ok order => .ok (sort order child)

/-- An aggregate over the rows of an operator; it needs a type there. -/
def boundAggregate (child : Operator) (a : Aggregate) : Except ExecError BoundAggregate := do
  let type ← (a.typeIn child.schema).mapError fun e => .invalidPlan (.aggregate e)
  let argument ← a.argument.mapM child.bound
  return ⟨a.function, argument, type == .float8⟩

/-- The grouping of the rows of an operator, under a schema with one column for
every key and every aggregate. -/
def grouping (child : Operator) (keys : List String) (aggregates : List Aggregate)
    (schema : Schema) : Except ExecError Operator := do
  let positions ← keys.mapM fun key =>
    (child.schema.find key).mapError fun e => .invalidPlan (.lookup e)
  let accumulated ← aggregates.mapM child.boundAggregate
  if schema.length ≠ keys.length + aggregates.length then
    throw (.invalidPlan (.aggregateShape schema keys.length aggregates.length))
  return aggregate positions accumulated schema child

/-! ## Scans that take over work

A sequential scan can filter and project by itself; an index scan cannot. -/

/-- Whether a scan can take a condition over. -/
def canFilter : Operator → Bool
  | seqScan _ => true
  | _ => false

/-- Whether a scan can drop columns. -/
def canProject : Operator → Bool
  | seqScan _ => true
  | _ => false

def withCondition (predicate : Expr) : Operator → Except ExecError Operator
  | seqScan scan => (scan.withCondition predicate).map seqScan
  | _ => .error (.invalidPlan .noSelection)

def withTarget (columns : List String) : Operator → Except ExecError Operator
  | seqScan scan => (scan.withTarget columns).map seqScan
  | _ => .error (.invalidPlan .noProjection)

end Operator
end BlockQuery
