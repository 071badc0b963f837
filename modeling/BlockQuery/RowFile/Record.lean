import BlockQuery.Checksum
import BlockQuery.Row.Codec

/-!
# Records

A record holds one row: the four-byte length of the whole record, the stored
row, and the checksum of both.
-/

namespace BlockQuery

inductive RecordError where
  | tooShort
  | badLength (length : Nat)
  | truncated (expected found : Nat)
  | badChecksum
  | badRow (e : DecodeError)
  | trailing (bytes : Nat)
deriving DecidableEq, Repr

namespace RecordError

def message : RecordError → String
  | tooShort => "Record too short"
  | badLength length => s!"Invalid record length: {length}"
  | truncated expected found => s!"Record truncated: expected {expected} bytes, got {found}"
  | badChecksum => "Checksum mismatch"
  | badRow e => e.message
  | trailing bytes => s!"Trailing bytes in record body: {bytes}"

/-- Whether the record ends before its time, as opposed to being wrong. -/
def isPremature : RecordError → Bool
  | tooShort | truncated .. => true
  | _ => false

end RecordError

namespace Record

/-- The length of the record of a row without values. -/
def minLength : Nat := 10

def encode (row : Row) : Bytes :=
  let body := Bytes.ofNat 4 (4 + row.encodedLength + 4) ++ row.encode
  body ++ Bytes.ofUInt32 (checksum body)

/-- The row of the record that a byte string starts with, and the record's length. -/
def decode (data : Bytes) : Except RecordError (Row × Nat) :=
  let size := data.length
  if size < minLength then .error .tooShort
  else
    let length := Bytes.toNat (data.take 4)
    if length < minLength then .error (.badLength length)
    else if size < length then .error (.truncated length size)
    else
      let body := data.take (length - 4)
      let stored := Bytes.toNat ((data.drop (length - 4)).take 4)
      if (checksum body).toNat ≠ stored then .error .badChecksum
      else
        match Row.decode (body.drop 4) with
        | .error e => .error (.badRow e)
        | .ok (row, used) =>
          if used ≠ length - 8 then .error (.trailing (length - 8 - used))
          else .ok (row, length)

theorem decode_length {data : Bytes} {row : Row} {used : Nat}
    (h : decode data = .ok (row, used)) : minLength ≤ used := by
  unfold decode at h
  simp only at h
  split at h
  · cases h
  · split at h
    · cases h
    · split at h
      · cases h
      · split at h
        · cases h
        · split at h
          · cases h
          · split at h
            · cases h
            · simp only [Except.ok.injEq, Prod.mk.injEq] at h
              omega

end Record
end BlockQuery
