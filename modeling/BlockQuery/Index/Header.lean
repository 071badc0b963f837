import BlockQuery.Checksum
import BlockQuery.Index.Error
import BlockQuery.RowOrder

/-!
# Index headers

A header starts with a magic word and a version.  Fixed-width fields give the
load factor, the number of entries of both levels and the lengths of both
sections; the key columns and the sort specs follow, and a checksum of all
before it comes last.  A sort spec is stored by the position of its column.
-/

namespace BlockQuery.Index

structure Header where
  loadFactor : Nat
  entryCount : Nat
  topCount : Nat
  topLength : Nat
  bottomLength : Nat
  schema : Schema
  specs : List SortSpec
deriving DecidableEq, Repr

def magic : Bytes := [0x54, 0x4C, 0x49, 0x58]

/-- A sum of words, as long as it fits 64 bits. -/
def addWords? (a b : Nat) : Option Nat :=
  if a + b < UInt64.size then some (a + b) else none

/-- One top entry for each load factor's worth of entries, the last one maybe
for fewer. -/
def topCountFor? (entryCount loadFactor : Nat) : Option Nat :=
  let width := max loadFactor 1
  (addWords? entryCount width).map fun sum => (sum - 1) / width

namespace Header

/-- The length of the file that a header of the given length describes. -/
def fileLength? (h : Header) (headerLength : Nat) : Option Nat := do
  let n ← addWords? headerLength h.topLength
  let n ← addWords? n 4
  let n ← addWords? n h.bottomLength
  addWords? n 4

def encodeColumn (c : Column) : Bytes := Bytes.ofSizedText c.name ++ [c.type.tag]

def encodeSpec (schema : Schema) (spec : SortSpec) : Except Error Bytes :=
  match schema.find spec.column with
  | .error e => .error (.invalidKey (.lookup e))
  | .ok i =>
    .ok (Bytes.ofNat 2 i ++ [if spec.ascending then 1 else 0, if spec.nullsFirst then 1 else 0])

def fixedFields (h : Header) : Bytes :=
  magic ++ Bytes.ofNat 2 formatVersion ++ Bytes.ofNat 4 h.loadFactor ++
    Bytes.ofNat 8 h.entryCount ++ Bytes.ofNat 8 h.topCount ++ Bytes.ofNat 8 h.topLength ++
    Bytes.ofNat 8 h.bottomLength

def encode (h : Header) : Except Error Bytes := do
  let specs ← h.specs.mapM (encodeSpec h.schema)
  let body := h.fixedFields ++
    Bytes.ofNat 2 h.schema.length ++ h.schema.flatMap encodeColumn ++
    Bytes.ofNat 2 h.specs.length ++ specs.flatten
  return body ++ Bytes.ofUInt32 (checksum body)

/-! ## Reading -/

/-- A step of reading a header. -/
abbrev Read := ExceptT Error (StateM ByteCursor)

def fail {α : Type} (e : Error) : Header.Read α := fun c => (.error e, c)

/-- A read that finds the header cut off when there are too few bytes. -/
def sized {α : Type} (read : BlockQuery.Read α) : Header.Read α := fun c =>
  match read c with
  | (.ok a, c) => (.ok a, c)
  | (.error _, c) => (.error (.corruption (some c.position) .headerTruncated), c)

def nat (width : Nat) : Header.Read Nat := sized (BlockQuery.Read.nat width)

def position : Header.Read Nat := fun c => (.ok c.position, c)

def name : Header.Read String := do
  let start ← position
  let length ← nat 4
  if maxNameLength < length then fail (.corruption (some start) (.longName length))
  else
    let bytes ← sized (BlockQuery.Read.bytes length)
    match Bytes.toText? bytes with
    | some s => return s
    | none => fail (.corruption (some start) .nameNotText)

def column : Header.Read Column := do
  let name ← name
  let tag ← nat 1
  match DataType.ofTag? (UInt8.ofNat tag) with
  | some t => return ⟨name, t⟩
  | none =>
    let after ← position
    fail (.corruption (some (after - 1)) (.badColumnTag tag))

def spec (schema : Schema) : Header.Read SortSpec := do
  let i ← nat 2
  let ascending ← nat 1
  let nullsFirst ← nat 1
  match schema[i]? with
  | some c => return ⟨c.name, ascending != 0, nullsFirst != 0⟩
  | none => fail (.corruption none (.specOutOfRange i schema.length))

/-- So many items, after the ones already read in reverse. -/
def many {α : Type} (item : Header.Read α) : Nat → List α → Header.Read (List α)
  | 0, done => return done.reverse
  | n + 1, done => do
    let a ← item
    many item n (a :: done)

/-- The fields of a header up to its checksum. -/
def fields : Header.Read Header := do
  let word ← sized (BlockQuery.Read.bytes 4)
  if word ≠ magic then fail (.corruption (some 0) .badMagic)
  else
    let version ← nat 2
    if version ≠ formatVersion then fail (.corruption (some 4) (.badVersion version))
    else
      let loadFactor ← nat 4
      let entryCount ← nat 8
      let topCount ← nat 8
      let topLength ← nat 8
      let bottomLength ← nat 8
      let columns ← nat 2
      let schema ← many column columns []
      let count ← nat 2
      let specs ← many (spec schema) count []
      return ⟨loadFactor, entryCount, topCount, topLength, bottomLength, schema, specs⟩

/-- The header checks that need no other part of the file. -/
def check (h : Header) : Except Error Unit :=
  if h.loadFactor = 0 then .error (.corruption none .noLoadFactor)
  else
    match topCountFor? h.entryCount h.loadFactor with
    | none => .error .overflow
    | some expected =>
      if h.topCount ≠ expected then
        .error (.corruption none (.topCount h.topCount h.entryCount h.loadFactor expected))
      else if h.schema.isEmpty || h.specs.isEmpty then .error (.corruption none .noKeyColumns)
      else .ok ()

/-- The header that a byte string starts with, and its length. -/
def decode (data : Bytes) : Except Error (Header × Nat) :=
  match fields (.ofBytes data) with
  | (.error e, _) => .error e
  | (.ok h, c) =>
    let computed := checksum (data.take c.position)
    match nat 4 c with
    | (.error e, _) => .error e
    | (.ok stored, after) =>
      if stored ≠ computed.toNat then .error (.corruption (some c.position) .headerChecksum)
      else h.check.map fun _ => (h, after.position)

end Header
end BlockQuery.Index
