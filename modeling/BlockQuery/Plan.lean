import BlockQuery.Plan.Error
import BlockQuery.RowOrder

/-!
# Query plans

A plan is a tree of relational operations over scans of tables and of the
outputs of other blocks.  Joins, groupings and projections carry their schema;
the other nodes pass on the one below.
-/

namespace BlockQuery

inductive ScanSource where
  | table (name : String)
  | block (seq : UInt32)
deriving DecidableEq, Repr

/-- A scan, with a predicate that its rows pass and a guess at their number. -/
structure Scan where
  source : ScanSource
  schema : Schema
  filter : Option Expr
  rowHint : Option UInt64
deriving DecidableEq, Repr

inductive JoinType where
  | inner
  | leftOuter
  | cross
deriving DecidableEq, Repr

structure Aggregate where
  function : AggregateFunction
  argument : Option Expr
  name : String
deriving DecidableEq, Repr

structure Target where
  expr : Expr
  name : String
  type : DataType
deriving DecidableEq, Repr

/-- How the rows of a table are stored. -/
inductive StoreType where
  | rowFile
deriving DecidableEq, Repr

inductive Plan where
  | root (child : Plan)
  | scan (scan : Scan)
  | join (type : JoinType) (condition : Option Expr) (left right : Plan) (schema : Schema)
  | filter (predicate : Expr) (input : Plan)
  | groupBy (keys : List String) (aggregates : List Aggregate) (input : Plan) (schema : Schema)
  | sort (specs : List SortSpec) (input : Plan)
  | project (targets : List Target) (input : Plan) (schema : Schema)
  | createTable (table : String) (schema : Schema) (store : StoreType) (path : Option String)
deriving DecidableEq, Repr

namespace Plan

def schema : Plan → Schema
  | root child => child.schema
  | scan s => s.schema
  | join _ _ _ _ schema => schema
  | filter _ input => input.schema
  | groupBy _ _ _ schema => schema
  | sort _ input => input.schema
  | project _ _ schema => schema
  | createTable _ schema _ _ => schema

def children : Plan → List Plan
  | root child => [child]
  | scan _ | createTable .. => []
  | join _ _ left right _ => [left, right]
  | filter _ input | groupBy _ _ input _ | sort _ input | project _ input _ => [input]

/-- Whether a node needs all rows of an input before it yields one. -/
def isBlocking : Plan → Bool
  | join .. | groupBy .. | sort .. => true
  | _ => false

def blockingCount : Plan → Nat
  | root child => child.blockingCount
  | scan _ | createTable .. => 0
  | join _ _ left right _ => left.blockingCount + right.blockingCount + 1
  | groupBy _ _ input _ | sort _ input => input.blockingCount + 1
  | filter _ input | project _ input _ => input.blockingCount

/-- The scans of a plan, from left to right. -/
def scans : Plan → List Scan
  | scan s => [s]
  | createTable .. => []
  | join _ _ left right _ => left.scans ++ right.scans
  | root input | filter _ input | groupBy _ _ input _ | sort _ input | project _ input _ =>
    input.scans

/-- The blocks whose outputs a plan scans, one for each scan. -/
def scannedBlocks (p : Plan) : List UInt32 :=
  p.scans.filterMap fun s => match s.source with
    | .block seq => some seq
    | .table _ => none

/-- The tables that a plan scans, one for each scan. -/
def scannedTables (p : Plan) : List String :=
  p.scans.filterMap fun s => match s.source with
    | .table name => some name
    | .block _ => none

end Plan
end BlockQuery
