import BlockQuery.Float8

/-!
# JSON documents

A document is a tree whose objects keep their members in the order in which
they were written, repeated names included.  Numbers are whole or double.

A part of a text may be written correctly and still have no value: a number
that is too large, a text with half a character, an object with such a name,
or an array or object below too many others.  It is an unreadable leaf of the
tree, so that a reader who does not need it can pass over it.
-/

namespace BlockQuery

inductive Json where
  | null
  | bool (b : Bool)
  | whole (n : Int)
  | double (x : Float8)
  | text (s : String)
  | array (items : List Json)
  | object (members : List (String × Json))
  | unreadable
deriving Repr, Inhabited

namespace Json

def ofOption {α : Type} (f : α → Json) : Option α → Json
  | none => null
  | some a => f a

def isNull : Json → Bool
  | null => true
  | _ => false

mutual

/-- Whether every part of a document has a value. -/
def isReadable : Json → Bool
  | unreadable => false
  | array items => areReadable items
  | object members => haveReadable members
  | _ => true

def areReadable : List Json → Bool
  | [] => true
  | v :: vs => isReadable v && areReadable vs

def haveReadable : List (String × Json) → Bool
  | [] => true
  | (_, v) :: rest => isReadable v && haveReadable rest

end

/-- The values that an object gives to a name, in order. -/
def valuesOf (members : List (String × Json)) (name : String) : List Json :=
  (members.filter (·.1 == name)).map (·.2)

/-- The value of the last member of that name. -/
def member? (name : String) : Json → Option Json
  | object members => (valuesOf members name).getLast?
  | _ => none

end Json
end BlockQuery
