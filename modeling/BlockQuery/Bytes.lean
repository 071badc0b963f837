/-!
# Byte strings

Byte strings are lists of octets.  Words are written least significant byte
first, and text is written as UTF-8.
-/

namespace BlockQuery

abbrev Bytes := List UInt8

namespace Bytes

/-- The `width` low bytes of `n`, least significant first. -/
def ofNat : Nat → Nat → Bytes
  | 0, _ => []
  | width + 1, n => UInt8.ofNat n :: ofNat width (n / 256)

/-- The number whose bytes are given, least significant first. -/
def toNat : Bytes → Nat
  | [] => 0
  | b :: bs => b.toNat + 256 * toNat bs

@[simp] theorem length_ofNat (width n : Nat) : (ofNat width n).length = width := by
  induction width generalizing n with
  | zero => rfl
  | succ width ih => simp [ofNat, ih]

theorem toNat_ofNat (width n : Nat) : toNat (ofNat width n) = n % Nat.pow 256 width := by
  induction width generalizing n with
  | zero => exact (Nat.mod_one n).symm
  | succ width ih =>
    have h : Nat.pow 256 (width + 1) = 256 * Nat.pow 256 width := Nat.mul_comm _ _
    rw [ofNat, toNat, ih, h, Nat.mod_mul]
    rfl

def ofUInt16 (n : UInt16) : Bytes := ofNat 2 n.toNat

def ofUInt32 (n : UInt32) : Bytes := ofNat 4 n.toNat

def ofUInt64 (n : UInt64) : Bytes := ofNat 8 n.toNat

def toUInt16 (bs : Bytes) : UInt16 := UInt16.ofNat bs.toNat

def toUInt32 (bs : Bytes) : UInt32 := UInt32.ofNat bs.toNat

def toUInt64 (bs : Bytes) : UInt64 := UInt64.ofNat bs.toNat

@[simp] theorem toUInt64_ofUInt64 (n : UInt64) : toUInt64 (ofUInt64 n) = n := by
  have h : n.toNat < Nat.pow 256 8 := n.toNat_lt
  rw [toUInt64, ofUInt64, toNat_ofNat, Nat.mod_eq_of_lt h, UInt64.ofNat_toNat]

/-- The UTF-8 bytes of a text. -/
def ofText (s : String) : Bytes := s.toUTF8.data.toList

/-- The text whose UTF-8 bytes are given, when they are valid UTF-8. -/
def toText? (bs : Bytes) : Option String := String.fromUTF8? ⟨bs.toArray⟩

@[simp] theorem toText?_ofText (s : String) : toText? (ofText s) = some s := by
  have h : (⟨(ofText s).toArray⟩ : ByteArray) = s.toUTF8 := by simp [ofText]
  rw [toText?, h, String.fromUTF8?, String.toUTF8_eq_toByteArray, dif_pos s.isValidUTF8]
  rfl

/-- A text takes its UTF-8 length after a four-byte length word. -/
def ofSizedText (s : String) : Bytes := ofNat 4 (ofText s).length ++ ofText s

end Bytes
end BlockQuery
