import BlockQuery.Datum
import BlockQuery.Json

/-!
# Sorted documents

A document in which the members of every object are in the order of their names.
-/

namespace BlockQuery.Json

def sortMembers (members : List (String × Json)) : List (String × Json) :=
  members.mergeSort fun a b => (compareText a.1 b.1).isLE

mutual

def sorted : Json → Json
  | array items => array (sortedItems items)
  | object members => object (sortMembers (sortedMembers members))
  | v => v

def sortedItems : List Json → List Json
  | [] => []
  | v :: vs => sorted v :: sortedItems vs

def sortedMembers : List (String × Json) → List (String × Json)
  | [] => []
  | (name, v) :: rest => (name, sorted v) :: sortedMembers rest

end

end BlockQuery.Json
