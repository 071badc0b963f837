import BlockQuery.Operator.IndexChoice

/-!
# Operators of plans

A plan becomes an operator tree node by node.  A filter directly over a scan
joins the predicate of the scan, which a table may answer by an index.
-/

namespace BlockQuery.Operator

/-- The rows of some files that pass a predicate. -/
def scanOfFiles (schema : Schema) (fragments : List Fragment) (predicate : Option Expr) :
    Except ExecError Operator :=
  let scan := SeqScan.ofFragments schema fragments
  match predicate with
  | none => .ok (seqScan scan)
  | some e => (scan.withCondition e).map seqScan

/-- The rows of a table that pass a predicate, by an index if one helps. -/
def scanOfTable (ctx : TaskContext) (table : String) (schema : Schema) (predicate : Option Expr) :
    Except ExecError Operator :=
  let choice := predicate.bind fun e =>
    (IndexChoice.ofPredicate? ctx table schema e).map fun c => (c, e)
  match choice with
  | some (c, e) => (indexScan (c.scan schema)).filtering e
  | none => do scanOfFiles schema (← ctx.getTable table) predicate

/-- The operator of a scan whose rows are also filtered. -/
def ofScan (ctx : TaskContext) (scan : Scan) (outer : Option Expr) : Except ExecError Operator :=
  let predicate := Expr.conjunction? (scan.filter.toList ++ outer.toList)
  match scan.source with
  | .block seq => do scanOfFiles scan.schema (← ctx.getOutput seq) predicate
  | .table table => scanOfTable ctx table scan.schema predicate

/-- The operator tree of a plan. -/
def ofPlan (ctx : TaskContext) : Plan → Except ExecError Operator
  | .root child => ofPlan ctx child
  | .scan scan => ofScan ctx scan none
  | .filter predicate (.scan scan) => ofScan ctx scan (some predicate)
  | .filter predicate input => do (← ofPlan ctx input).filtering predicate
  | .join type condition left right _ => do
    let l ← ofPlan ctx left
    let r ← ofPlan ctx right
    joining type l r condition
  | .groupBy keys aggregates input schema => do
    (← ofPlan ctx input).grouping keys aggregates schema
  | .sort specs input => do (← ofPlan ctx input).sorting specs
  | .project targets input _ => do (← ofPlan ctx input).projecting targets
  | .createTable table _ _ _ => .error (.invalidPlan (.notExecutable table))

end BlockQuery.Operator
