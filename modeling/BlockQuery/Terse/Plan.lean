import BlockQuery.Plan.Builder
import BlockQuery.Plan.Document
import BlockQuery.Terse.Expr

/-!
# Plans in terse form

A plan is an array of the name of a builder and what it is given; rows and
conditions at the end may be left out.  The builders that check their input may
refuse it.  An object is a plan in the form of documents.
-/

namespace BlockQuery

def Json.toTextList? (v : Json) : Option (List String) := v.toListOf? toText?

/-- The value of the last argument, which may be null or missing. -/
def Json.lastOf? {α : Type} (f : Json → Option α) : List Json → Option (Option α)
  | [] => some none
  | [v] => toOption? f (some v)
  | _ => none

def Schema.ofTerse? (v : Json) : Option Schema := v.toListOf? Column.ofTerse?

def Aggregate.ofTerse? : Json → Option Aggregate
  | .array [.text function, argument, .text name] => do
    return ⟨← AggregateFunction.ofName? function,
      ← Json.toOption? Expr.ofTerse? (some argument), name⟩
  | _ => none

def Target.ofTerse? : Json → Option Target
  | .array [e, .text name, .text type] => do
    return ⟨← Expr.ofTerse? e, name, ← DataType.ofDocumentName? type⟩
  | _ => none

def Plan.ofTerse? (v : Json) : Option (Except PlanError Plan) :=
  match v with
  | .array (.text "scan" :: .text table :: schema :: rows)
  | .array (.text "table" :: .text table :: schema :: rows) => do
    return .ok (.scanTable table (← Schema.ofTerse? schema) (← Json.lastOf? Json.toUInt64? rows))
  | .array (.text "block" :: seq :: schema :: rows) => do
    return .ok (.scanBlock (← seq.toUInt32?) (← Schema.ofTerse? schema)
      (← Json.lastOf? Json.toUInt64? rows))
  | .array [.text "hint", p, rows] => do
    let rows ← rows.toUInt64?
    return (← ofTerse? p).map (.hinted rows)
  | .array [.text "filter", p, e] => do
    let e ← Expr.ofTerse? e
    return (← ofTerse? p).map (.filter e)
  | .array (.text "join" :: left :: right :: .text type :: condition) => do
    let type ← JoinType.ofDocumentName? type
    let condition ← Json.lastOf? Expr.ofTerse? condition
    let left ← ofTerse? left
    let right ← ofTerse? right
    return do return .joining (← left) (← right) type condition
  | .array [.text "group", p, keys, aggregates] => do
    let keys ← keys.toTextList?
    let aggregates ← aggregates.toListOf? Aggregate.ofTerse?
    return (← ofTerse? p).bind (·.grouping keys aggregates)
  | .array [.text "sort", p, specs] => do
    let specs ← specs.toListOf? SortSpec.ofTerse?
    return (← ofTerse? p).bind (·.sorting specs)
  | .array [.text "project", p, targets] => do
    let targets ← targets.toListOf? Target.ofTerse?
    return (← ofTerse? p).map (·.projecting targets)
  | .array [.text "cols", p, names] => do
    let names ← names.toTextList?
    return (← ofTerse? p).bind (·.projectingColumns names)
  | .array [.text "root", p] => (ofTerse? p).map (·.map .root)
  | .array [.text "create", .text table, schema] => do
    return .ok (.creating table (← Schema.ofTerse? schema))
  | .object _ => (Plan.ofJson? .alone v).map .ok
  | _ => none

end BlockQuery
