import BlockQuery.Json.Record
import BlockQuery.RowFile.Reader

/-!
# Fragments as documents
-/

namespace BlockQuery.Fragment

def toJson (f : Fragment) : Json := .object [("name", .text f.name), ("path", .text f.path)]

def ofJson? (v : Json) : Option Fragment := do
  match ← v.fields? ["name", "path"] with
  | [some name, some path] => return ⟨← name.toText?, ← path.toText?⟩
  | _ => none

end BlockQuery.Fragment
