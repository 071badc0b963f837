import BlockQuery.Expr
import BlockQuery.Json.Record
import BlockQuery.Row
import BlockQuery.RowOrder

/-!
# Values, schemas and expressions as documents

Each type has a document for each of its values, and a reader of documents.
-/

namespace BlockQuery

open Json (Setting)

namespace DataType

def documentName : DataType → String
  | bool => "bool"
  | int4 => "int4"
  | int8 => "int8"
  | float8 => "float8"
  | text => "text"

def ofDocumentName? : String → Option DataType
  | "bool" => some bool
  | "int4" => some int4
  | "int8" => some int8
  | "float8" => some float8
  | "text" => some text
  | _ => none

@[simp] theorem ofDocumentName?_documentName (t : DataType) :
    ofDocumentName? t.documentName = some t := by
  cases t <;> rfl

def toJson (t : DataType) : Json := .text t.documentName

def ofJson? (setting : Setting) (v : Json) : Option DataType :=
  (v.choice? setting).bind ofDocumentName?

end DataType

namespace Datum

def toJson : Datum → Json
  | null => .object [("type", .text "null")]
  | bool b => .object [("type", .text "bool"), ("value", .bool b)]
  | int4 n => .object [("type", .text "int4"), ("value", .whole n.toInt)]
  | int8 n => .object [("type", .text "int8"), ("value", .whole n.toInt)]
  | float8 x => .object [("type", .text "float8"), ("value", .double x)]
  | text s => .object [("type", .text "text"), ("value", .text s)]

/-- The value of a type name and a document. -/
def ofTyped? (type : String) (v : Json) : Option Datum :=
  match type with
  | "null" => if v.isNull then some null else none
  | "bool" => v.toBool?.map bool
  | "int4" => (v.toWhole? (-0x80000000) 0x7fffffff).map fun n => int4 (Int32.ofInt n)
  | "int8" =>
    (v.toWhole? (-0x8000000000000000) 0x7fffffffffffffff).map fun n => int8 (Int64.ofInt n)
  | "float8" => v.toFloat8?.map float8
  | "text" => v.toText?.map text
  | _ => none

def ofJson? (setting : Setting) : Json → Option Datum
  | .array [type, v] => (type.choice? setting).bind (ofTyped? · v)
  | .object members => do
    match ← Json.Record.fields? ["type", "value"] (.named members) with
    | [some type, some v] => (type.choice? setting).bind (ofTyped? · v)
    | [some type, none] => if type.choice? setting = some "null" then some null else none
    | _ => none
  | _ => none

end Datum

def Row.toJson (row : Row) : Json :=
  .object [("values", .array (List.map Datum.toJson row))]

def Row.ofJson? (setting : Setting) (v : Json) : Option Row := do
  match ← v.fields? ["values"] with
  | [some values] => values.toListOf? (Datum.ofJson? setting)
  | _ => none

def Column.toJson (c : Column) : Json :=
  .object [("name", .text c.name), ("data_type", c.type.toJson)]

def Column.ofJson? (setting : Setting) (v : Json) : Option Column := do
  match ← v.fields? ["name", "data_type"] with
  | [some name, some type] => return ⟨← name.toText?, ← DataType.ofJson? setting type⟩
  | _ => none

def Schema.toJson (schema : Schema) : Json :=
  .object [("columns", .array (List.map Column.toJson schema))]

def Schema.ofJson? (setting : Setting) (v : Json) : Option Schema := do
  match ← v.fields? ["columns"] with
  | [some columns] => columns.toListOf? (Column.ofJson? setting)
  | _ => none

namespace SortSpec

def toJson (spec : SortSpec) : Json :=
  .object [("column", .text spec.column), ("ascending", .bool spec.ascending),
    ("nulls_first", .bool spec.nullsFirst)]

def ofJson? (v : Json) : Option SortSpec := do
  match ← v.fields? ["column", "ascending", "nulls_first"] with
  | [some column, some ascending, some nullsFirst] =>
    return ⟨← column.toText?, ← ascending.toBool?, ← nullsFirst.toBool?⟩
  | _ => none

end SortSpec

namespace BinaryOp

def documentName : BinaryOp → String
  | comparison .eq => "eq"
  | comparison .notEq => "not_eq"
  | comparison .lt => "lt"
  | comparison .ltEq => "lt_eq"
  | comparison .gt => "gt"
  | comparison .gtEq => "gt_eq"
  | connective .and => "and"
  | connective .or => "or"
  | arithmetic .plus => "plus"
  | arithmetic .minus => "minus"
  | arithmetic .times => "multiply"
  | arithmetic .divide => "divide"
  | arithmetic .modulo => "modulo"

def ofDocumentName? : String → Option BinaryOp
  | "eq" => some (comparison .eq)
  | "not_eq" => some (comparison .notEq)
  | "lt" => some (comparison .lt)
  | "lt_eq" => some (comparison .ltEq)
  | "gt" => some (comparison .gt)
  | "gt_eq" => some (comparison .gtEq)
  | "and" => some (connective .and)
  | "or" => some (connective .or)
  | "plus" => some (arithmetic .plus)
  | "minus" => some (arithmetic .minus)
  | "multiply" => some (arithmetic .times)
  | "divide" => some (arithmetic .divide)
  | "modulo" => some (arithmetic .modulo)
  | _ => none

@[simp] theorem ofDocumentName?_documentName (op : BinaryOp) :
    ofDocumentName? op.documentName = some op := by
  rcases op with c | c | a
  · cases c <;> rfl
  · cases c <;> rfl
  · cases a <;> rfl

def ofJson? (setting : Setting) (v : Json) : Option BinaryOp :=
  (v.choice? setting).bind ofDocumentName?

end BinaryOp

namespace Expr

/-- The kinds of expressions, by the names that tag them. -/
def kinds : List String := ["column", "literal", "binary", "not", "is_null", "like"]

def toJson : Expr → Json
  | column name => .object [("kind", .text "column"), ("name", .text name)]
  | literal value => .object [("kind", .text "literal"), ("value", value.toJson)]
  | binary op left right =>
    .object [("kind", .text "binary"), ("op", .text op.documentName), ("left", left.toJson),
      ("right", right.toJson)]
  | not inner => .object [("kind", .text "not"), ("expr", inner.toJson)]
  | isNull inner negated =>
    .object [("kind", .text "is_null"), ("expr", inner.toJson), ("negated", .bool negated)]
  | like inner pattern negated =>
    .object [("kind", .text "like"), ("expr", inner.toJson), ("pattern", .text pattern),
      ("negated", .bool negated)]

/-- Reads an expression that is nested in at most so many levels. -/
def ofJsonWithin? : Nat → Setting → Json → Option Expr
  | 0, _, _ => none
  | depth + 1, setting, v => do
    let inner := ofJsonWithin? depth .within
    let (kind, record) ← v.tagged? setting kinds
    match kind with
    | "column" =>
      match ← record.fields? ["name"] with
      | [some name] => return column (← name.toText?)
      | _ => none
    | "literal" =>
      match ← record.fields? ["value"] with
      | [some value] => return literal (← Datum.ofJson? .within value)
      | _ => none
    | "binary" =>
      match ← record.fields? ["op", "left", "right"] with
      | [some op, some left, some right] =>
        return binary (← BinaryOp.ofJson? .within op) (← inner left) (← inner right)
      | _ => none
    | "not" =>
      match ← record.fields? ["expr"] with
      | [some e] => return not (← inner e)
      | _ => none
    | "is_null" =>
      match ← record.fields? ["expr", "negated"] with
      | [some e, negated] =>
        return isNull (← inner e) (← Json.toDefault? Json.toBool? false negated)
      | _ => none
    | _ =>
      match ← record.fields? ["expr", "pattern", "negated"] with
      | [some e, some pattern, negated] =>
        return like (← inner e) (← pattern.toText?) (← Json.toDefault? Json.toBool? false negated)
      | _ => none

def ofJson? (setting : Setting) (v : Json) : Option Expr := ofJsonWithin? v.depth setting v

end Expr
end BlockQuery
