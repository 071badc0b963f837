import BlockQuery.Bytes
import BlockQuery.Json.Parser
import BlockQuery.Json.Printer

/-!
# Bytes as hexadecimal text

A byte is written as two hexadecimal digits in lower case, the high one first.
Bytes are read back from their digits.
-/

namespace BlockQuery.Bytes

/-- The two digits of a byte. -/
def hexDigits (b : UInt8) : List Char := [Json.hexDigit (b.toNat / 16), Json.hexDigit b.toNat]

def toHex (bs : Bytes) : String := String.ofList (bs.flatMap hexDigits)

/-- The byte that two digits make. -/
def ofHexDigits? (a b : Char) : Option UInt8 := do
  return UInt8.ofNat (16 * (← Json.hexValue? a) + (← Json.hexValue? b))

theorem hexValue?_hexDigit (n : Nat) : Json.hexValue? (Json.hexDigit n) = some (n % 16) := by
  have h : ∀ d : Fin 16, Json.hexValue? (Json.hexDigit d.val) = some d.val := by decide
  have := h ⟨n % 16, Nat.mod_lt _ (by decide)⟩
  simpa [Json.hexDigit] using this

theorem ofHexDigits?_hexDigit (b : UInt8) :
    ofHexDigits? (Json.hexDigit (b.toNat / 16)) (Json.hexDigit b.toNat) = some b := by
  have hb := b.toNat_lt
  simp only [ofHexDigits?, hexValue?_hexDigit]
  show some (UInt8.ofNat (16 * (b.toNat / 16 % 16) + b.toNat % 16)) = some b
  rw [show 16 * (b.toNat / 16 % 16) + b.toNat % 16 = b.toNat by omega, UInt8.ofNat_toNat]

/-- The bytes whose digits are given, in either case. -/
def ofDigits? : List Char → Option Bytes
  | [] => some []
  | [_] => none
  | a :: b :: cs => do return (← ofHexDigits? a b) :: (← ofDigits? cs)

theorem ofDigits?_flatMap_hexDigits (bs : Bytes) : ofDigits? (bs.flatMap hexDigits) = some bs := by
  induction bs with
  | nil => rfl
  | cons b bs ih =>
    simp only [List.flatMap_cons, hexDigits, List.cons_append, List.nil_append, ofDigits?,
      ofHexDigits?_hexDigit]
    rw [show List.flatMap _ bs = bs.flatMap hexDigits from rfl, ih]
    rfl

def ofHex? (s : String) : Option Bytes := ofDigits? s.toList

theorem ofHex?_toHex (bs : Bytes) : ofHex? (toHex bs) = some bs := by
  rw [ofHex?, toHex, String.toList_ofList, ofDigits?_flatMap_hexDigits]

end BlockQuery.Bytes
