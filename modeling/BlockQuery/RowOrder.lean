import BlockQuery.Row
import BlockQuery.Schema

/-!
# Row order

Sort specs name columns with a direction and a place for nulls.  Resolved in a
schema they order rows lexicographically.  The direction turns the order of
values around but leaves the place of nulls; a value missing from a short row
counts as null.
-/

namespace BlockQuery

structure SortSpec where
  column : String
  ascending : Bool
  nullsFirst : Bool
deriving DecidableEq, Repr, Inhabited

def SortSpec.direction (spec : SortSpec) : String :=
  if spec.ascending then "ASC" else "DESC"

structure SortKey where
  position : Nat
  ascending : Bool
  nullsFirst : Bool
deriving DecidableEq, Repr

namespace SortKey

/-- The value that a key reads from a row, if it is there and not null. -/
def value? (key : SortKey) (row : Row) : Option Datum :=
  match row[key.position]? with
  | none | some .null => none
  | some d => some d

def compare (key : SortKey) (a b : Row) : Ordering :=
  match key.value? a, key.value? b with
  | none, none => .eq
  | none, some _ => if key.nullsFirst then .lt else .gt
  | some _, none => if key.nullsFirst then .gt else .lt
  | some x, some y =>
    if key.ascending then x.totalCompare y else (x.totalCompare y).swap

end SortKey

structure RowOrder where
  keys : List SortKey
  specs : List SortSpec
deriving DecidableEq, Repr

namespace RowOrder

def resolve (schema : Schema) (spec : SortSpec) : Except LookupError SortKey :=
  (schema.find spec.column).map fun i => ⟨i, spec.ascending, spec.nullsFirst⟩

/-- The order that sort specs mean in a schema. -/
def ofSpecs (schema : Schema) (specs : List SortSpec) : Except LookupError RowOrder :=
  (specs.mapM (resolve schema)).map fun keys => ⟨keys, specs⟩

def positions (order : RowOrder) : List Nat := order.keys.map (·.position)

/-- The first key that tells two rows apart decides. -/
def compareKeys (a b : Row) : List SortKey → Ordering
  | [] => .eq
  | key :: keys => (key.compare a b).then (compareKeys a b keys)

def compare (order : RowOrder) (a b : Row) : Ordering := compareKeys a b order.keys

/-- Rows in order; rows that compare equal keep their places. -/
def sort (order : RowOrder) (rows : List Row) : List Row :=
  rows.mergeSort fun a b => (order.compare a b).isLE

end RowOrder
end BlockQuery
