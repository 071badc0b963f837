import BlockQuery.Bytes
import BlockQuery.Path
import BlockQuery.Text

/-!
# The disk

Row files, indexes and intermediate results are files named by paths.  A disk
is the finite tree of its files and directories: each entry has a place, and the
parent of an entry is a directory.

Files are numbered in the order in which they are made.  A file that was opened
for writing is known by its number, so that after its removal nothing written to
it reaches a later file of the same name.
-/

namespace BlockQuery

inductive Entry where
  | file (number : Nat) (content : Bytes)
  | directory
deriving DecidableEq, Repr

/-- A file that was opened for writing. -/
structure OpenFile where
  place : Place
  number : Nat
deriving DecidableEq, Repr

structure Disk where
  entries : List (Place × Entry)
  /-- The number of the next file. -/
  nextNumber : Nat
deriving Repr

namespace Disk

/-- A disk without files: the starting points of paths are directories. -/
def empty : Disk := ⟨[], 0⟩

def get? (disk : Disk) (place : Place) : Option Entry :=
  if place.length ≤ 1 then some .directory
  else (disk.entries.find? (·.1 == place)).map (·.2)

/-- The entry at a place replaced, or added after the others. -/
def put (disk : Disk) (place : Place) (entry : Entry) : Disk :=
  if disk.entries.any (·.1 == place) then
    { disk with
      entries := disk.entries.map fun e => if e.1 == place then (place, entry) else e }
  else { disk with entries := disk.entries ++ [(place, entry)] }

/-- What was put at a place is found there, unless paths start there. -/
theorem get?_put_self (disk : Disk) {place : Place} (entry : Entry) (h : 1 < place.length) :
    (disk.put place entry).get? place = some entry := by
  have hlen : ¬ place.length ≤ 1 := by omega
  simp only [get?, if_neg hlen, put]
  split
  next hany =>
    have hsame : ((fun e : Place × Entry => e.1 == place) ∘
        fun e => if e.1 == place then (place, entry) else e) = fun e => e.1 == place := by
      funext e
      by_cases he : e.1 = place <;> simp [he]
    obtain ⟨e, he⟩ := Option.isSome_iff_exists.1 (List.find?_isSome.2 (List.any_eq_true.1 hany))
    rw [List.find?_map, hsame, he]
    have hplace : e.1 = place := by simpa using List.find?_some he
    simp [hplace]
  next hany =>
    have hnone : disk.entries.find? (fun e => e.1 == place) = none := by
      rw [List.find?_eq_none]
      intro e he heq
      exact hany (List.any_eq_true.2 ⟨e, he, heq⟩)
    simp [List.find?_append, hnone]

/-- The entry at a place and all below it taken away. -/
def remove (disk : Disk) (place : Place) : Disk :=
  { disk with entries := disk.entries.filter fun e => !place.isPrefixOf e.1 }

/-! ## Following paths -/

/-- The place reached by following names; each one but the last has to lead to
a directory. -/
def follow (disk : Disk) (place : Place) : List String → Except IoError Place
  | [] => .ok place
  | name :: names =>
    match disk.get? place with
    | none => .error .notFound
    | some (.file ..) => .error .notDirectory
    | some .directory =>
      if name.isEmpty || name == "." then follow disk place names
      else if name == ".." then follow disk place.above names
      else if Path.maxNameLength < name.utf8ByteSize then .error .nameTooLong
      else follow disk (place ++ [name]) names

def resolve (disk : Disk) (path : String) : Except IoError Place := do
  Path.check path
  let (place, names) := Path.start path
  disk.follow place names

/-- The entry that a path names. -/
def openEntry (disk : Disk) (path : String) : Except IoError Entry := do
  let place ← disk.resolve path
  match disk.get? place with
  | some entry => return entry
  | none => throw .notFound

/-- Whether a path names an entry. -/
def pathExists (disk : Disk) (path : String) : Bool := (disk.openEntry path).isOk

/-- The directory in which the last of some names is looked up, and that name.
The names are given from the last one on.  There is no such name when the last
one does not lead downwards. -/
def lastStep? (disk : Disk) (start : Place) :
    List String → Except IoError (Option (Place × String))
  | [] => .ok none
  | last :: above => do
    let place ← disk.follow start (above.reverse ++ ["."])
    return if last == "." || last == ".." then none else some (place, last)

/-! ## Reading -/

/-- The content of the file that a path names. -/
def read (disk : Disk) (path : String) : Except IoError Bytes := do
  match ← disk.openEntry path with
  | .file _ content => return content
  | .directory => throw .isDirectory

/-- The text of the file that a path names. -/
def readText (disk : Disk) (path : String) : Except IoError String := do
  match (← disk.read path).toText? with
  | some text => return text
  | none => throw .invalidText

/-! ## Writing -/

/-- Opens the file that a path names and takes its content away, or makes a new
file.  With a slash at its end a path can only name a directory. -/
def create (disk : Disk) (path : String) : Except IoError (OpenFile × Disk) := do
  Path.check path
  let (start, backwards) := Path.backwards path
  match ← disk.lastStep? start backwards with
  | none => throw .isDirectory
  | some (above, last) =>
    if path.endsWith "/" then throw .isDirectory
    let place ← disk.follow above [last]
    match disk.get? place with
    | some .directory => throw .isDirectory
    | some (.file number _) => return (⟨place, number⟩, disk.put place (.file number []))
    | none =>
      let number := disk.nextNumber
      return (⟨place, number⟩,
        { disk with nextNumber := number + 1 }.put place (.file number []))

/-- The content of a file after bytes were written at a position in it.  A gap
before them is filled with zeros. -/
def overwritten (content : Bytes) (position : Nat) (bytes : Bytes) : Bytes :=
  if bytes.isEmpty then content
  else
    content.take position ++ List.replicate (position - content.length) 0 ++ bytes ++
      content.drop (position + bytes.length)

/-- Bytes written at a position in an open file, unless it was removed. -/
def writeAt (disk : Disk) (file : OpenFile) (position : Nat) (bytes : Bytes) : Disk :=
  match disk.get? file.place with
  | some (.file number content) =>
    if number = file.number then
      disk.put file.place (.file number (overwritten content position bytes))
    else disk
  | _ => disk

/-- The file that a path names given a new content; nothing is done where there
is none. -/
def write (disk : Disk) (path : String) (content : Bytes) : Disk :=
  match disk.resolve path with
  | .ok place =>
    match disk.get? place with
    | some (.file number _) => disk.put place (.file number content)
    | _ => disk
  | .error _ => disk

/-! ## Directories -/

/-- A new directory where names lead to, the last one being given first. -/
def makeDirectory (disk : Disk) (start : Place) (backwards : List String) :
    Except IoError Disk := do
  match ← disk.lastStep? start backwards with
  | none => throw .alreadyExists
  | some (above, last) =>
    let place ← disk.follow above [last]
    if (disk.get? place).isSome then throw .alreadyExists
    return disk.put place .directory

/-- Makes a directory, unless there is one. -/
def ensureDirectory (disk : Disk) (start : Place) (backwards : List String) :
    Except IoError Unit × Disk :=
  match disk.makeDirectory start backwards with
  | .ok disk => (.ok (), disk)
  | .error e =>
    let isThere := (disk.follow start (backwards.reverse ++ ["."])).isOk
    (if isThere then .ok () else .error e, disk)

/-- Makes a directory and those above it that are missing. -/
def ensureDirectories (disk : Disk) (start : Place) (backwards : List String) :
    Except IoError Unit × Disk :=
  match disk.ensureDirectory start backwards, backwards with
  | (.error .notFound, _), _ :: above =>
    match disk.ensureDirectories start
        (above.dropWhile fun name => name.isEmpty || name == ".") with
    | (.ok _, disk) => disk.ensureDirectory start backwards
    | (.error e, disk) => (.error e, disk)
  | outcome, _ => outcome
termination_by backwards.length
decreasing_by
  exact Nat.lt_succ_of_le (List.dropWhile_suffix _).length_le

/-- A directory and those above it made where they are missing. -/
def createDirectories (disk : Disk) (path : String) : Except IoError Unit × Disk :=
  if path.isEmpty then (.ok (), disk)
  else
    match Path.check path with
    | .error e => (.error e, disk)
    | .ok _ =>
      let (start, backwards) := Path.backwards path
      disk.ensureDirectories start backwards

/-- A file with a content, in place of the one that a path names, if any.  The
directories above it are made where they are missing. -/
def store (disk : Disk) (path : String) (content : Bytes) : Except IoError Disk := do
  let disk ← match Path.parent? path with
    | none => pure disk
    | some parent =>
      let (made, disk) := disk.createDirectories parent
      made.map fun _ => disk
  let (file, disk) ← disk.create path
  return disk.writeAt file 0 content

/-! ## Trees -/

/-- What a path names and all below it taken away. -/
def removeTree (disk : Disk) (path : String) : Disk :=
  match disk.resolve path with
  | .ok place => disk.remove place
  | .error _ => disk

/-- The files below a place: their names from there, joined by slashes, and
their contents. -/
def filesBelow (disk : Disk) (place : Place) : List (String × Bytes) :=
  disk.entries.filterMap fun (p, entry) =>
    match entry with
    | .file _ content =>
      if place.isPrefixOf p then some ("/".intercalate (p.drop place.length), content) else none
    | .directory => none

/-- The names and sizes of the files below what a path names, in the order of
the names. -/
def listing (disk : Disk) (path : String) : List (String × Nat) :=
  match disk.resolve path with
  | .ok place =>
    ((disk.filesBelow place).map fun (name, content) => (name, content.length)).mergeSort
      fun a b => (compareText a.1 b.1).isLE
  | .error _ => []

end Disk
end BlockQuery
