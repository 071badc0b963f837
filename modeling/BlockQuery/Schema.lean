import BlockQuery.Datum

/-!
# Schemas

A schema is a list of named, typed columns.  A column name may carry
qualifiers, separated by dots; its simple name is what follows the last dot.

A name is looked up leniently.  The first column of exactly that name wins.
Otherwise the columns with the same simple name are taken, provided that the
name looked up is unqualified, or the column is, or the column's name ends in
the whole name after a dot; there has to be exactly one of them.
-/

namespace BlockQuery

/-- What follows the last dot of a name. -/
def simpleName (name : String) : String :=
  String.ofList (name.toList.reverse.takeWhile (· ≠ '.')).reverse

/-- Whether `name` ends in `.part`. -/
def endsInPart (name part : String) : Bool :=
  ('.' :: part.toList).isSuffixOf name.toList

structure Column where
  name : String
  type : DataType
deriving DecidableEq, Repr, Inhabited

namespace Column

def simple (c : Column) : String := simpleName c.name

/-- The column under the name of a table. -/
def qualified (c : Column) (table : String) : Column :=
  ⟨table ++ "." ++ c.simple, c.type⟩

/-- Whether a column may stand for a name that is not exactly its own. -/
def answersTo (c : Column) (name : String) : Bool :=
  c.simple == simpleName name &&
    (simpleName name == name || c.name == c.simple || endsInPart c.name name)

def display (c : Column) : String := c.name ++ " " ++ c.type.name

end Column

inductive LookupError where
  | unknown (name : String)
  | ambiguous (name : String)
deriving DecidableEq, Repr

def LookupError.message : LookupError → String
  | unknown name => "Unknown column '" ++ name ++ "'"
  | ambiguous name => "Ambiguous column '" ++ name ++ "'"

abbrev Schema := List Column

namespace Schema

/-- The positions of the columns that may stand for a name. -/
def answering (schema : Schema) (name : String) : List Nat :=
  (schema.zipIdx.filter fun p => p.1.answersTo name).map (·.2)

/-- The position of the column that a name means. -/
def find (schema : Schema) (name : String) : Except LookupError Nat :=
  match schema.findIdx? (·.name == name) with
  | some i => .ok i
  | none =>
    match schema.answering name with
    | [] => .error (.unknown name)
    | [i] => .ok i
    | _ => .error (.ambiguous name)

def has (schema : Schema) (name : String) : Bool := (schema.find name).isOk

def qualified (schema : Schema) (table : String) : Schema :=
  schema.map (·.qualified table)

def display (schema : Schema) : String :=
  "(" ++ ", ".intercalate (schema.map Column.display) ++ ")"

end Schema
end BlockQuery
