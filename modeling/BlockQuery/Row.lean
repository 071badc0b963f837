import BlockQuery.Datum

/-!
# Rows

A row is a list of values.
-/

namespace BlockQuery

abbrev Row := List Datum

namespace Row

/-- The values at the given positions; a position past the end reads as null. -/
def select (row : Row) (positions : List Nat) : Row :=
  positions.map fun i => row[i]?.getD .null

def nulls (n : Nat) : Row := List.replicate n .null

@[simp] theorem length_select (row : Row) (positions : List Nat) :
    (row.select positions).length = positions.length := by
  simp [select]

def numericEq (a b : Row) : Bool :=
  a.length == b.length && (a.zip b).all fun p => p.1.numericEq p.2

def display (row : Row) : String :=
  "(" ++ ", ".intercalate (row.map Datum.display) ++ ")"

end Row
end BlockQuery
