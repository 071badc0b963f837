import BlockQuery.Expr.Typing
import BlockQuery.Plan

/-!
# Building plans

Builders work out the schemas of the nodes they make.  Sorting and grouping
refuse columns that the input does not have, and grouping refuses aggregates
of the wrong type.
-/

namespace BlockQuery

/-- The type of an aggregate over an argument of a type, if it has one. -/
def AggregateFunction.resultType (function : AggregateFunction) :
    Option DataType → Except PlanError DataType
  | none => match function with
    | count => .ok .int8
    | _ => .error (.starArgument function)
  | some t => match function with
    | count => .ok .int8
    | avg => if t.isNumeric then .ok .float8 else .error (.aggregateType function t)
    | sum =>
      if t = .float8 then .ok .float8
      else if t.isNumeric then .ok .int8
      else .error (.aggregateType function t)
    | min | max => .ok t

def Aggregate.typeIn (input : Schema) (a : Aggregate) : Except PlanError DataType := do
  match a.argument with
  | some e => a.function.resultType (some (← e.typeIn input))
  | none => a.function.resultType none

namespace Plan

/-- A scan of a table, whose columns it qualifies. -/
def scanTable (table : String) (schema : Schema) (rowHint : Option UInt64) : Plan :=
  scan ⟨.table table, schema.qualified table, none, rowHint⟩

def scanBlock (seq : UInt32) (schema : Schema) (rowHint : Option UInt64) : Plan :=
  scan ⟨.block seq, schema, none, rowHint⟩

/-- Gives a row hint to a scan; other plans stay as they are. -/
def hinted (rows : UInt64) : Plan → Plan
  | scan s => scan { s with rowHint := some rows }
  | p => p

def joining (left right : Plan) (type : JoinType) (condition : Option Expr) : Plan :=
  join type condition left right (left.schema ++ right.schema)

/-- The columns of a grouping: its keys, then its aggregates. -/
def groupSchema (input : Schema) (keys : List String) (aggregates : List Aggregate) :
    Except PlanError Schema := do
  let keyColumns ← keys.mapM fun key =>
    match input.find key with
    | .ok i => .ok (input[i]?.toList)
    | .error e => .error (.lookup e)
  let others ← aggregates.mapM fun a => do return Column.mk a.name (← a.typeIn input)
  return keyColumns.flatten ++ others

def grouping (input : Plan) (keys : List String) (aggregates : List Aggregate) :
    Except PlanError Plan := do
  return groupBy keys aggregates input (← groupSchema input.schema keys aggregates)

def sorting (input : Plan) (specs : List SortSpec) : Except PlanError Plan := do
  for spec in specs do
    match input.schema.find spec.column with
    | .ok _ => pure ()
    | .error e => throw (.lookup e)
  return sort specs input

def projecting (input : Plan) (targets : List Target) : Plan :=
  project targets input (targets.map fun t => ⟨t.name, t.type⟩)

/-- The projection on columns, under the names by which they are asked for. -/
def projectingColumns (input : Plan) (names : List String) : Except PlanError Plan := do
  let targets ← names.mapM fun name => do
    return Target.mk (.column name) name (← (Expr.column name).typeIn input.schema)
  return projecting input targets

def creating (table : String) (schema : Schema) : Plan :=
  createTable table schema .rowFile none

end Plan
end BlockQuery
