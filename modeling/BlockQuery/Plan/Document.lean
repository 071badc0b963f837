import BlockQuery.Expr.Document
import BlockQuery.Json.Parser
import BlockQuery.Json.Printer
import BlockQuery.Plan

/-!
# Plans as documents

A plan is kept as indented JSON text under a version number.  A text of another
version is refused by its version, whatever its plan is.
-/

namespace BlockQuery

open Json (Setting)

namespace AggregateFunction

def ofName? : String → Option AggregateFunction
  | "count" => some count
  | "sum" => some sum
  | "min" => some min
  | "max" => some max
  | "avg" => some avg
  | _ => none

@[simp] theorem ofName?_name (f : AggregateFunction) : ofName? f.name = some f := by
  cases f <;> rfl

end AggregateFunction

namespace ScanSource

def toJson : ScanSource → Json
  | table name => .object [("kind", .text "table"), ("table", .text name)]
  | block seq => .object [("kind", .text "intermediate"), ("seq", .whole seq.toNat)]

def ofJson? (setting : Setting) (v : Json) : Option ScanSource := do
  let (kind, record) ← v.tagged? setting ["table", "intermediate"]
  match kind with
  | "table" =>
    match ← record.fields? ["table"] with
    | [some name] => return table (← name.toText?)
    | _ => none
  | _ =>
    match ← record.fields? ["seq"] with
    | [some seq] => return block (← seq.toUInt32?)
    | _ => none

end ScanSource

namespace JoinType

def documentName : JoinType → String
  | inner => "inner"
  | leftOuter => "left_outer"
  | cross => "cross"

def ofDocumentName? : String → Option JoinType
  | "inner" => some inner
  | "left_outer" => some leftOuter
  | "cross" => some cross
  | _ => none

@[simp] theorem ofDocumentName?_documentName (t : JoinType) :
    ofDocumentName? t.documentName = some t := by
  cases t <;> rfl

end JoinType

namespace StoreType

def documentName : StoreType → String
  | rowFile => "row_file"

def ofDocumentName? : String → Option StoreType
  | "row_file" => some rowFile
  | _ => none

@[simp] theorem ofDocumentName?_documentName (t : StoreType) :
    ofDocumentName? t.documentName = some t := by
  cases t; rfl

end StoreType

namespace Aggregate

def toJson (a : Aggregate) : Json :=
  .object [("func", .text a.function.name), ("arg", .ofOption Expr.toJson a.argument),
    ("name", .text a.name)]

def ofJson? (setting : Setting) (v : Json) : Option Aggregate := do
  match ← v.fields? ["func", "arg", "name"] with
  | [some function, argument, some name] =>
    return ⟨← (function.choice? setting).bind AggregateFunction.ofName?,
      ← Json.toOption? (Expr.ofJson? setting) argument, ← name.toText?⟩
  | _ => none

end Aggregate

namespace Target

def toJson (t : Target) : Json :=
  .object [("expr", t.expr.toJson), ("name", .text t.name), ("data_type", t.type.toJson)]

def ofJson? (setting : Setting) (v : Json) : Option Target := do
  match ← v.fields? ["expr", "name", "data_type"] with
  | [some e, some name, some type] =>
    return ⟨← Expr.ofJson? setting e, ← name.toText?, ← DataType.ofJson? setting type⟩
  | _ => none

end Target

namespace Plan

/-- The kinds of plan nodes, by the names that tag them. -/
def kinds : List String :=
  ["root", "scan", "join", "filter", "group_by", "sort", "projection", "create_table"]

def toJson : Plan → Json
  | root child => .object [("kind", .text "root"), ("child", child.toJson)]
  | scan s =>
    .object [("kind", .text "scan"), ("source", s.source.toJson), ("schema", s.schema.toJson),
      ("filter", .ofOption Expr.toJson s.filter),
      ("row_hint", .ofOption (fun n : UInt64 => .whole n.toNat) s.rowHint)]
  | join type condition left right schema =>
    .object [("kind", .text "join"), ("join_type", .text type.documentName),
      ("condition", .ofOption Expr.toJson condition), ("left", left.toJson),
      ("right", right.toJson), ("schema", schema.toJson)]
  | filter predicate input =>
    .object [("kind", .text "filter"), ("predicate", predicate.toJson), ("input", input.toJson)]
  | groupBy keys aggregates input schema =>
    .object [("kind", .text "group_by"), ("keys", .array (keys.map Json.text)),
      ("aggregates", .array (aggregates.map Aggregate.toJson)), ("input", input.toJson),
      ("schema", schema.toJson)]
  | sort specs input =>
    .object [("kind", .text "sort"), ("specs", .array (specs.map SortSpec.toJson)),
      ("input", input.toJson)]
  | project targets input schema =>
    .object [("kind", .text "projection"), ("targets", .array (targets.map Target.toJson)),
      ("input", input.toJson), ("schema", schema.toJson)]
  | createTable table schema store path =>
    .object [("kind", .text "create_table"), ("table", .text table), ("schema", schema.toJson),
      ("store_type", .text store.documentName), ("path", .ofOption Json.text path)]

/-- Reads a plan that is nested in at most so many levels. -/
def ofJsonWithin? : Nat → Setting → Json → Option Plan
  | 0, _, _ => none
  | depth + 1, setting, v => do
    let inner := ofJsonWithin? depth .within
    let (kind, record) ← v.tagged? setting kinds
    match kind with
    | "root" =>
      match ← record.fields? ["child"] with
      | [some child] => return root (← inner child)
      | _ => none
    | "scan" =>
      match ← record.fields? ["source", "schema", "filter", "row_hint"] with
      | [some source, some schema, predicate, rowHint] =>
        return scan ⟨← ScanSource.ofJson? .within source, ← Schema.ofJson? .within schema,
          ← Json.toOption? (Expr.ofJson? .within) predicate,
          ← Json.toOption? Json.toUInt64? rowHint⟩
      | _ => none
    | "join" =>
      match ← record.fields? ["join_type", "condition", "left", "right", "schema"] with
      | [some type, condition, some left, some right, some schema] =>
        return join (← (type.choice? .within).bind JoinType.ofDocumentName?)
          (← Json.toOption? (Expr.ofJson? .within) condition) (← inner left) (← inner right)
          (← Schema.ofJson? .within schema)
      | _ => none
    | "filter" =>
      match ← record.fields? ["predicate", "input"] with
      | [some predicate, some input] =>
        return filter (← Expr.ofJson? .within predicate) (← inner input)
      | _ => none
    | "group_by" =>
      match ← record.fields? ["keys", "aggregates", "input", "schema"] with
      | [some keys, some aggregates, some input, some schema] =>
        return groupBy (← keys.toListOf? Json.toText?)
          (← aggregates.toListOf? (Aggregate.ofJson? .within)) (← inner input)
          (← Schema.ofJson? .within schema)
      | _ => none
    | "sort" =>
      match ← record.fields? ["specs", "input"] with
      | [some specs, some input] =>
        return sort (← specs.toListOf? SortSpec.ofJson?) (← inner input)
      | _ => none
    | "projection" =>
      match ← record.fields? ["targets", "input", "schema"] with
      | [some targets, some input, some schema] =>
        return project (← targets.toListOf? (Target.ofJson? .within)) (← inner input)
          (← Schema.ofJson? .within schema)
      | _ => none
    | _ =>
      match ← record.fields? ["table", "schema", "store_type", "path"] with
      | [some table, some schema, some store, path] =>
        return createTable (← table.toText?) (← Schema.ofJson? .within schema)
          (← (store.choice? .within).bind StoreType.ofDocumentName?)
          (← Json.toOption? Json.toText? path)
      | _ => none

def ofJson? (setting : Setting) (v : Json) : Option Plan := ofJsonWithin? v.depth setting v

/-- A plan under its version number. -/
def toVersioned (p : Plan) : Json :=
  .object [("version", .whole planVersion), ("plan", p.toJson)]

/-- Reads a plan and its version number from a document. -/
def ofVersioned (v : Json) : Except PlanError Plan :=
  match (v.member? "version").bind Json.toUInt64? with
  | none => .error .missingVersion
  | some version =>
    if version.toNat ≠ planVersion then .error (.version version.toNat)
    else match (v.member? "plan").bind (ofJson? .alone) with
      | some p => .ok p
      | none => .error .malformed

def encode (p : Plan) : String := p.toVersioned.indented

/-- Reads the text of a plan, every part of which has to be readable. -/
def decode (s : String) : Except PlanError Plan :=
  match Json.parse? s with
  | some v => if v.isReadable then ofVersioned v.merged else .error .malformed
  | none => .error .malformed

end Plan
end BlockQuery
