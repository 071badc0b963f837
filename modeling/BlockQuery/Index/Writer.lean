import BlockQuery.Index.Header
import BlockQuery.Row.Codec

/-!
# Writing indexes

A writer collects the entries of the bottom level, and for the top level the
key and the place of the first entry of every block; a block is one load
factor's worth of entries.  The file gets its content when the writer is closed.
-/

namespace BlockQuery.Index

structure Writer where
  path : String
  file : OpenFile
  schema : Schema
  specs : List SortSpec
  order : RowOrder
  loadFactor : Nat
  verifyOrder : Bool
  /-- The keys and the places of the blocks, the last one first. -/
  top : List (Row × Nat)
  /-- The keys and offsets of the entries, the last one first. -/
  bottom : List (Row × Nat)
  bottomLength : Nat
  entryCount : Nat
  lastKey : Option Row
deriving Repr

/-- What is known of an index file that was written. -/
structure Summary where
  path : String
  entryCount : Nat
  topCount : Nat
  loadFactor : Nat
  fileSize : Nat
deriving DecidableEq, Repr

/-- An entry of the bottom level, or of the top level with a place in the bottom. -/
def encodeEntry (entry : Row × Nat) : Bytes := entry.1.encode ++ Bytes.ofNat 8 entry.2

def encodedEntryLength (entry : Row × Nat) : Nat := entry.1.encodedLength + 8

def encodeSection (content : Bytes) : Bytes := content ++ Bytes.ofUInt32 (checksum content)

namespace Writer

/-- A writer to a new, empty file. -/
def create (disk : Disk) (path : String) (schema : Schema) (specs : List SortSpec)
    (loadFactor : Nat) (verifyOrder : Bool) : Except Error (Writer × Disk) :=
  if loadFactor = 0 then .error (.invalidKey .noLoadFactor)
  else if specs.isEmpty || schema.isEmpty then .error (.invalidKey .noKeyColumns)
  else
    match RowOrder.ofSpecs schema specs with
    | .error e => .error (.invalidKey (.lookup e))
    | .ok order =>
      match disk.create path with
      | .error e => .error (.io ("Failed to create index file: " ++ path) e)
      | .ok (file, disk) =>
        .ok (⟨path, file, schema, specs, order, loadFactor, verifyOrder, [], [], 0, 0, none⟩, disk)

/-- The last key, if it comes after the given one. -/
def larger? (w : Writer) (key : Row) : Option Row :=
  if w.verifyOrder then w.lastKey.filter fun last => w.order.compare last key == .gt else none

/-- One more entry.  A refused entry leaves the writer as it was. -/
def write (w : Writer) (key : Row) (offset : Nat) : Except Error Writer :=
  if key.length ≠ w.schema.length then .error (.invalidKey (.keyWidth key.length w.schema))
  else
    match w.larger? key with
    | some last =>
      .error (.orderViolation w.entryCount
        ("key " ++ key.display ++ " follows larger key " ++ last.display))
    | none =>
      .ok { w with
        top := if w.entryCount % w.loadFactor = 0 then (key, w.bottomLength) :: w.top else w.top
        bottom := (key, offset) :: w.bottom
        bottomLength := w.bottomLength + encodedEntryLength (key, offset)
        entryCount := w.entryCount + 1
        lastKey := if w.verifyOrder then some key else w.lastKey }

def writeAll (w : Writer) : List (Row × Nat) → Except Error Writer
  | [] => .ok w
  | (key, offset) :: rest =>
    match w.write key offset with
    | .error e => .error e
    | .ok w => writeAll w rest

def topSection (w : Writer) : Bytes := w.top.reverse.flatMap encodeEntry

def bottomSection (w : Writer) : Bytes := w.bottom.reverse.flatMap encodeEntry

def header? (w : Writer) : Option Header :=
  (topCountFor? w.entryCount w.loadFactor).map fun topCount =>
    ⟨w.loadFactor, w.entryCount, topCount, w.topSection.length, w.bottomSection.length, w.schema,
      w.specs⟩

/-- The whole file of the entries written, and its description. -/
def image (w : Writer) : Except Error (Bytes × Summary) :=
  match w.header? with
  | none => .error .overflow
  | some h =>
    match h.encode with
    | .error e => .error e
    | .ok header =>
      match h.fileLength? header.length with
      | none => .error .overflow
      | some size =>
        .ok (header ++ encodeSection w.topSection ++ encodeSection w.bottomSection,
          ⟨w.path, h.entryCount, h.topCount, h.loadFactor, size⟩)

/-- Writes the file from its start; what others have put behind stays there. -/
def close (w : Writer) (disk : Disk) : Except Error (Summary × Disk) :=
  w.image.map fun (content, summary) => (summary, disk.writeAt w.file 0 content)

end Writer

/-! ## Building

An index on one column is built from the values of that column and the places
of their rows, which are sorted first.
-/

/-- The entries in the order of an index; equal keys keep their order. -/
def sortEntries (order : RowOrder) (entries : List (Row × Nat)) : List (Row × Nat) :=
  entries.mergeSort fun a b => (order.compare a.1 b.1).isLE

/-- A new index of some entries.  The file is there, and empty, also if the
entries cannot be written. -/
def build (disk : Disk) (path : String) (schema : Schema) (specs : List SortSpec)
    (loadFactor : Nat) (verifyOrder : Bool) (entries : List (Row × Nat)) :
    Except Error Summary × Disk :=
  match Writer.create disk path schema specs loadFactor verifyOrder with
  | .error e => (.error e, disk)
  | .ok (w, disk) =>
    match (w.writeAll (sortEntries w.order entries)).bind (·.close disk) with
    | .error e => (.error e, disk)
    | .ok (summary, disk) => (.ok summary, disk)

end BlockQuery.Index
