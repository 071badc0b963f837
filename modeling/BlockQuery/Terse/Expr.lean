import BlockQuery.Bytes.Hex
import BlockQuery.Expr.Document

/-!
# Values and expressions in terse form

The terse form is a short way to write values, schemas, expressions and plans
as JSON by hand.  `NULL`, truth values, `INT4` values and texts stand for
themselves.  An object with the member `i8` holds an `INT8` value, and one with
the member `f8` the bits of a `FLOAT8` value, the high ones first; what is
written of a NaN is only that it is one.  Columns and sort keys are arrays.

An expression is an array of the name of an operation and its operands.
Binary operations go by their symbols, in lower case.  An object is an
expression in the form of documents.
-/

namespace BlockQuery

namespace Float8

/-- The text of the bits of a number. -/
def hex (x : Float8) : String := Bytes.toHex (Bytes.ofUInt64 x.bits).reverse

def ofHex? (s : String) : Option Float8 := do
  let bs ← Bytes.ofHex? s
  return ⟨Bytes.toUInt64 (List.reverse bs)⟩

theorem ofHex?_hex (x : Float8) : ofHex? x.hex = some x := by
  rw [ofHex?, hex, Bytes.ofHex?_toHex]
  simp

end Float8

namespace Datum

def toTerse : Datum → Json
  | null => .null
  | bool b => .bool b
  | int4 n => .whole n.toInt
  | int8 n => .object [("i8", .whole n.toInt)]
  | float8 x => .object [("f8", .text (if x.isNaN then "nan" else x.hex))]
  | text s => .text s

def ofTerse? : Json → Option Datum
  | .null => some null
  | .bool b => some (bool b)
  | .whole n => some (int4 (Int32.ofInt n))
  | .object [("i8", .whole n)] => some (int8 (Int64.ofInt n))
  | .object [("f8", .text s)] => (Float8.ofHex? s).map float8
  | .text s => some (text s)
  | _ => none

theorem ofTerse?_toTerse (d : Datum) (h : ∀ x, d = float8 x → x.isNaN = false) :
    ofTerse? d.toTerse = some d := by
  cases d with
  | float8 x => simp [toTerse, ofTerse?, h x rfl, Float8.ofHex?_hex]
  | _ => simp [toTerse, ofTerse?]

end Datum

def Column.ofTerse? : Json → Option Column
  | .array [.text name, .text type] => (DataType.ofDocumentName? type).map (⟨name, ·⟩)
  | _ => none

namespace SortSpec

def toTerse (spec : SortSpec) : Json :=
  .array [.text spec.column, .bool spec.ascending, .bool spec.nullsFirst]

def ofTerse? : Json → Option SortSpec
  | .array [.text column, .bool ascending, .bool nullsFirst] => some ⟨column, ascending, nullsFirst⟩
  | _ => none

theorem ofTerse?_toTerse (spec : SortSpec) : ofTerse? spec.toTerse = some spec := rfl

end SortSpec

/-! ## Expressions -/

def BinaryOp.all : List BinaryOp :=
  [.comparison .eq, .comparison .notEq, .comparison .lt, .comparison .ltEq, .comparison .gt,
    .comparison .gtEq, .connective .and, .connective .or, .arithmetic .plus, .arithmetic .minus,
    .arithmetic .times, .arithmetic .divide, .arithmetic .modulo]

theorem BinaryOp.mem_all (op : BinaryOp) : op ∈ all := by
  rcases op with c | c | c <;> cases c <;> decide

/-- The operation that goes by a symbol. -/
def BinaryOp.ofTerse? (symbol : String) : Option BinaryOp :=
  all.find? fun op => op.symbol.toLower == symbol

def Expr.ofTerse? (v : Json) : Option Expr :=
  match v with
  | .array [.text "col", .text name] => some (.column name)
  | .array [.text "lit", value] => (Datum.ofTerse? value).map .literal
  | .array [.text "not", e] => (ofTerse? e).map .not
  | .array [.text "isnull", e] => (ofTerse? e).map (.isNull · false)
  | .array [.text "notnull", e] => (ofTerse? e).map (.isNull · true)
  | .array [.text "like", e, .text pattern] => (ofTerse? e).map (.like · pattern false)
  | .array [.text "notlike", e, .text pattern] => (ofTerse? e).map (.like · pattern true)
  | .array [.text op, a, b] => do
    return .binary (← BinaryOp.ofTerse? op) (← ofTerse? a) (← ofTerse? b)
  | .object _ => Expr.ofJson? .alone v
  | _ => none

end BlockQuery
