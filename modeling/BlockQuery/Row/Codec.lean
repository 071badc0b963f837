import BlockQuery.ByteCursor
import BlockQuery.Row

/-!
# Stored rows

A row is stored as a two-byte count and its values.  A value is a tag byte
followed by its payload: one byte for a boolean, four or eight for an integer,
the bit pattern of a double, and a text after its four-byte length.  The count
and the lengths keep their low bytes only.
-/

namespace BlockQuery

def Datum.encode : Datum → Bytes
  | .null => [0]
  | .bool b => [1, if b then 1 else 0]
  | .int4 n => 2 :: Bytes.ofUInt32 n.toUInt32
  | .int8 n => 3 :: Bytes.ofUInt64 n.toUInt64
  | .float8 x => 4 :: Bytes.ofUInt64 x.bits
  | .text s => 5 :: Bytes.ofSizedText s

def Datum.encodedLength : Datum → Nat
  | .null => 1
  | .bool _ => 2
  | .int4 _ => 5
  | .int8 _ | .float8 _ => 9
  | .text s => 5 + (Bytes.ofText s).length

@[simp] theorem Datum.length_encode (d : Datum) : d.encode.length = d.encodedLength := by
  cases d <;> simp [encode, encodedLength, Bytes.ofUInt32, Bytes.ofUInt64, Bytes.ofSizedText]
  omega

namespace Row

def encode (row : Row) : Bytes :=
  Bytes.ofNat 2 row.length ++ row.flatMap Datum.encode

def encodedLength (row : Row) : Nat :=
  row.foldr (fun d n => d.encodedLength + n) 2

end Row

namespace Read

/-- A tag byte and the payload that it announces. -/
def datum : Read Datum := do
  let tag ← nat 1
  match tag with
  | 0 => return .null
  | 1 =>
    let b ← nat 1
    return .bool (b != 0)
  | 2 =>
    let n ← nat 4
    return .int4 (UInt32.ofNat n).toInt32
  | 3 =>
    let n ← nat 8
    return .int8 (UInt64.ofNat n).toInt64
  | 4 =>
    let n ← nat 8
    return .float8 ⟨UInt64.ofNat n⟩
  | 5 =>
    let s ← text
    return .text s
  | other => fail (.invalidTag (UInt8.ofNat other))

/-- So many values, after the ones already read in reverse. -/
def data : Nat → Row → Read Row
  | 0, done => return done.reverse
  | n + 1, done => do
    let d ← datum
    data n (d :: done)

def row : Read Row := do
  let count ← nat 2
  data count []

end Read

/-- The row that a byte string starts with, and the number of bytes it takes. -/
def Row.decode (bytes : Bytes) : Except DecodeError (Row × Nat) :=
  match Read.row (.ofBytes bytes) with
  | (.ok row, c) => .ok (row, c.position)
  | (.error e, _) => .error e

end BlockQuery
