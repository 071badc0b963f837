import BlockQuery.Float8.Decimal
import BlockQuery.Text

/-!
# Values

A `Datum` is one field of a row.  Values of all types are ordered together:
null, then booleans, then numbers, then texts.  Integers are compared exactly;
as soon as a double takes part, both numbers are compared as doubles.
-/

namespace BlockQuery

inductive DataType where
  | bool
  | int4
  | int8
  | float8
  | text
deriving DecidableEq, Repr, Inhabited

namespace DataType

/-- The name of a type in query text. -/
def name : DataType → String
  | bool => "BOOL"
  | int4 => "INT4"
  | int8 => "INT8"
  | float8 => "FLOAT8"
  | text => "TEXT"

/-- The tag byte of a type in stored schemas, and of its values in stored rows. -/
def tag : DataType → UInt8
  | bool => 1
  | int4 => 2
  | int8 => 3
  | float8 => 4
  | text => 5

def ofTag? (tag : UInt8) : Option DataType :=
  if tag = 1 then some bool
  else if tag = 2 then some int4
  else if tag = 3 then some int8
  else if tag = 4 then some float8
  else if tag = 5 then some text
  else none

@[simp] theorem ofTag?_tag (t : DataType) : ofTag? t.tag = some t := by
  cases t <;> rfl

def isNumeric : DataType → Bool
  | int4 | int8 | float8 => true
  | bool | text => false

end DataType

inductive Datum where
  | null
  | bool (b : Bool)
  | int4 (n : Int32)
  | int8 (n : Int64)
  | float8 (x : Float8)
  | text (s : String)
deriving DecidableEq, Repr, Inhabited

namespace Datum

/-- The type of a value; null has none. -/
def type? : Datum → Option DataType
  | null => none
  | bool _ => some .bool
  | int4 _ => some .int4
  | int8 _ => some .int8
  | float8 _ => some .float8
  | text _ => some .text

def isNull : Datum → Bool
  | null => true
  | _ => false

def isNumeric : Datum → Bool
  | int4 _ | int8 _ | float8 _ => true
  | _ => false

def toBool? : Datum → Option Bool
  | bool b => some b
  | _ => none

/-- The value of an integer of either width. -/
def toInt? : Datum → Option Int
  | int4 n => some n.toInt
  | int8 n => some n.toInt
  | _ => none

/-- A number as a double; wide integers are rounded. -/
def toFloat8? : Datum → Option Float8
  | int4 n => some (.ofInt n.toInt)
  | int8 n => some (.ofInt n.toInt)
  | float8 x => some x
  | _ => none

def toText? : Datum → Option String
  | text s => some s
  | _ => none

/-- The place of a value's class in the order of all values. -/
def classRank : Datum → Nat
  | null => 0
  | bool _ => 1
  | int4 _ | int8 _ | float8 _ => 2
  | text _ => 3

/-- The order of two numbers: exact between integers, in the total order of
doubles otherwise. -/
def compareNumbers (a b : Datum) : Ordering :=
  match a.toInt?, b.toInt? with
  | some x, some y => compare x y
  | _, _ => match a.toFloat8?, b.toFloat8? with
    | some x, some y => x.totalCompare y
    | _, _ => .eq

/-- The order of all values. -/
def totalCompare : Datum → Datum → Ordering
  | bool a, bool b => compare a.toNat b.toNat
  | text a, text b => compareText a b
  | a, b =>
    if a.isNumeric && b.isNumeric then compareNumbers a b
    else compare a.classRank b.classRank

/-- Equality of query expressions: unknown as soon as one side is null. -/
def equalKnown? (a b : Datum) : Option Bool :=
  if a.isNull || b.isNull then none else some (a.totalCompare b == .eq)

/-- Equality with doubles compared as numbers: a NaN differs from itself and
the zeros are equal. -/
def numericEq : Datum → Datum → Bool
  | float8 x, float8 y => x.numericEq y
  | a, b => a == b

/-- The text of a value; texts stand between single quotes as they are. -/
def display : Datum → String
  | null => "NULL"
  | bool b => if b then "true" else "false"
  | int4 n => n.toInt.repr
  | int8 n => n.toInt.repr
  | float8 x => x.display
  | text s => "'" ++ s ++ "'"

end Datum
end BlockQuery
