import BlockQuery.IoError

/-!
# Paths

A path is text.  It starts at the root, in the working directory, or in a
directory that is written as a name starting with `$`, and goes on by names
between slashes.  A name is empty between two slashes and after the last one;
it means to stay in the same place, and so does a single dot, while two dots
lead upwards.
-/

namespace BlockQuery

/-- The names that lead from a starting point to a file or directory. -/
abbrev Place := List String

/-- The place above a place.  Above a starting point is another one; the root is
above itself. -/
def Place.above : Place → Place
  | [name] => if name == "/" then [name] else [name ++ "/.."]
  | place => place.dropLast

namespace Path

/-- The most bytes of a name. -/
def maxNameLength : Nat := 255

/-- The most bytes of a path. -/
def maxLength : Nat := 4095

/-- The names between the slashes of a path. -/
def split (path : String) : List String := (path.toList.splitOn '/').map String.ofList

/-- `child` below `parent`; a rooted child stands for itself. -/
def join (parent child : String) : String :=
  if child.startsWith "/" || parent.isEmpty then child
  else if parent.endsWith "/" then parent ++ child
  else parent ++ "/" ++ child

/-- Where a path starts, and the names to follow from there. -/
def start (path : String) : Place × List String :=
  match split path with
  | "" :: names => (["/"], names)
  | name :: names => if name.startsWith "$" then ([name], names) else (["."], name :: names)
  | [] => (["."], [])

/-- Where a path starts, and the names to follow from there, the last one first.
Slashes at its end are left out. -/
def backwards (path : String) : Place × List String :=
  let (place, names) := start path
  (place, names.reverse.dropWhile String.isEmpty)

/-- Checks that a path can be asked for. -/
def check (path : String) : Except IoError Unit :=
  if path.toList.contains '\x00' then .error .nulInName
  else if path.isEmpty then .error .notFound
  else if maxLength < path.utf8ByteSize then .error .nameTooLong
  else .ok ()

/-! ## The path above a path -/

/-- A path in reverse without slashes and single dots at its end; a dot that is
the whole path stays. -/
def trimEnd : List Char → List Char
  | '/' :: cs => trimEnd cs
  | '.' :: '/' :: cs => trimEnd cs
  | cs => cs

/-- The path without its last name, if it has one. -/
def parent? (path : String) : Option String :=
  match trimEnd path.toList.reverse with
  | [] => none
  | cs =>
    let above := cs.dropWhile (· != '/')
    if above.isEmpty then some ""
    else
      match trimEnd above with
      | [] => some "/"
      | cs => some (String.ofList cs.reverse)

end Path
end BlockQuery
