import BlockQuery.Json

/-!
# Records in documents

A record is written as an object, with its fields by name in any order and
other members ignored, or as an array, with its fields in order.  A field that
is named twice makes the record unreadable.

A tagged record carries the name of its kind in the member `kind`, or as the
first item.  A choice among names is a text, or an object whose only member has
that name and is null.  Within a tagged record a kind may also be given by its
position among the names, and an empty object stands for null in a choice.

Members that are ignored may be unreadable, but not in a tagged record, which is
read as a whole before its kind is known.
-/

namespace BlockQuery.Json

/-- Whether a document stands alone or within a tagged record. -/
inductive Setting where
  | alone
  | within
deriving DecidableEq, Repr

inductive Record where
  | named (members : List (String × Json))
  | listed (items : List Json)
deriving Repr

def toRecord? : Json → Option Record
  | object members => some (.named members)
  | array items => some (.listed items)
  | _ => none

/-- The values of the fields of a record, with those that are missing. -/
def Record.fields? (names : List String) : Record → Option (List (Option Json))
  | named members => names.mapM fun name =>
    match valuesOf members name with
    | [] => some none
    | [v] => some (some v)
    | _ => none
  | listed items =>
    if items.length ≤ names.length then
      some (items.map some ++ List.replicate (names.length - items.length) none)
    else none

/-- The fields of a document that is a record. -/
def fields? (names : List String) (v : Json) : Option (List (Option Json)) :=
  v.toRecord?.bind (Record.fields? names)

/-- The one of some names that a tag means. -/
def tagName? (setting : Setting) (names : List String) : Json → Option String
  | text s => if names.contains s then some s else none
  | whole n => if setting = .within ∧ 0 ≤ n then names[n.toNat]? else none
  | _ => none

/-- The kind of a document that is a tagged record, and the rest of it. -/
def kindAndRest? (setting : Setting) (kinds : List String) : Json → Option (String × Record)
  | object members =>
    match valuesOf members "kind" with
    | [tag] => (tagName? setting kinds tag).map fun kind =>
      (kind, .named (members.filter (·.1 != "kind")))
    | _ => none
  | array (tag :: items) => (tagName? setting kinds tag).map fun kind => (kind, .listed items)
  | _ => none

/-- The kind of a tagged record and the rest of it.  Within another tagged record
all of it has been found readable. -/
def tagged? (setting : Setting) (kinds : List String) (v : Json) : Option (String × Record) :=
  if setting = .within ∨ v.isReadable then v.kindAndRest? setting kinds else none

/-- The name that a choice among names gives. -/
def choice? (setting : Setting) : Json → Option String
  | text s => some s
  | object [(name, null)] => some name
  | object [(name, object [])] => if setting = .within then some name else none
  | _ => none

def toText? : Json → Option String
  | text s => some s
  | _ => none

def toBool? : Json → Option Bool
  | bool b => some b
  | _ => none

/-- A whole number within bounds. -/
def toWhole? (low high : Int) : Json → Option Int
  | whole n => if low ≤ n ∧ n ≤ high then some n else none
  | _ => none

def toUInt32? (v : Json) : Option UInt32 :=
  (v.toWhole? 0 0xffffffff).map fun n => UInt32.ofNat n.toNat

def toUInt64? (v : Json) : Option UInt64 :=
  (v.toWhole? 0 0xffffffffffffffff).map fun n => UInt64.ofNat n.toNat

def toFloat8? : Json → Option Float8
  | whole n => some (.ofInt n)
  | double x => some x
  | _ => none

def toListOf? {α : Type} (f : Json → Option α) : Json → Option (List α)
  | array items => items.mapM f
  | _ => none

/-- A field that may be missing or null. -/
def toOption? {α : Type} (f : Json → Option α) : Option Json → Option (Option α)
  | none | some null => some none
  | some v => (f v).map some

/-- A field with a value for where it is missing. -/
def toDefault? {α : Type} (f : Json → Option α) (default : α) : Option Json → Option α
  | none => some default
  | some v => f v

/-- The members of an object without those whose name comes again. -/
def lastOfEach {α : Type} : List (String × α) → List (String × α)
  | [] => []
  | p :: ps => if ps.any (·.1 == p.1) then lastOfEach ps else p :: lastOfEach ps

mutual

/-- A document in which every object has each name once, with its last value. -/
def merged : Json → Json
  | array items => array (mergedItems items)
  | object members => object (lastOfEach (mergedMembers members))
  | v => v

def mergedItems : List Json → List Json
  | [] => []
  | v :: vs => merged v :: mergedItems vs

def mergedMembers : List (String × Json) → List (String × Json)
  | [] => []
  | (name, v) :: rest => (name, merged v) :: mergedMembers rest

end

mutual

/-- The number of arrays and objects within one another. -/
def depth : Json → Nat
  | array items => depthItems items + 1
  | object members => depthMembers members + 1
  | _ => 1

def depthItems : List Json → Nat
  | [] => 0
  | v :: vs => max (depth v) (depthItems vs)

def depthMembers : List (String × Json) → Nat
  | [] => 0
  | (_, v) :: rest => max (depth v) (depthMembers rest)

end

end BlockQuery.Json
