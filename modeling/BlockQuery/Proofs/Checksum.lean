import Mathlib.Tactic
import BlockQuery.Checksum

/-!
# Damage that a checksum shows

No step of the division loses anything: the highest bit of the new register
tells whether the polynomial was added, and so what the lost bit was.  Hence
byte strings that differ in one byte have different checksums.
-/

namespace BlockQuery

namespace Checksum

theorem toNat_shiftRight_one (crc : UInt32) : (crc >>> 1).toNat = crc.toNat / 2 := by
  rw [UInt32.toNat_shiftRight, Nat.shiftRight_eq_div_pow]
  rfl

theorem testBit_shiftRight (crc : UInt32) : (crc >>> 1).toNat.testBit 31 = false := by
  have hlt := crc.toNat_lt
  apply Nat.testBit_lt_two_pow
  rw [toNat_shiftRight_one]
  omega

theorem testBit_polynomial (crc : UInt32) :
    ((crc >>> 1) ^^^ 0xEDB88320).toNat.testBit 31 = true := by
  rw [UInt32.toNat_xor, Nat.testBit_xor, testBit_shiftRight]
  rfl

/-- A register is made of its lowest bit and the others. -/
theorem eq_of_shiftRight_eq {a b : UInt32} (hhigh : a >>> 1 = b >>> 1)
    (hlow : a &&& 1 = 1 ↔ b &&& 1 = 1) : a = b := by
  have hbit : ∀ c : UInt32, c &&& 1 = 1 ↔ c.toNat % 2 = 1 := by
    intro c
    rw [← UInt32.toNat_inj, UInt32.toNat_and]
    change c.toNat &&& 1 = 1 ↔ _
    rw [Nat.and_one_is_mod]
  have hhalf := congrArg UInt32.toNat hhigh
  rw [toNat_shiftRight_one, toNat_shiftRight_one] at hhalf
  rw [hbit, hbit] at hlow
  apply UInt32.toNat_inj.mp
  omega

theorem shiftBit_injective : Function.Injective shiftBit := by
  intro a b h
  unfold shiftBit at h
  by_cases ha : a &&& 1 = 1 <;> by_cases hb : b &&& 1 = 1
  · rw [if_pos ha, if_pos hb] at h
    exact eq_of_shiftRight_eq ((UInt32.xor_left_inj _).mp h) (iff_of_true ha hb)
  · rw [if_pos ha, if_neg hb] at h
    have hbit := testBit_polynomial a
    rw [h, testBit_shiftRight] at hbit
    cases hbit
  · rw [if_neg ha, if_pos hb] at h
    have hbit := testBit_polynomial b
    rw [← h, testBit_shiftRight] at hbit
    cases hbit
  · rw [if_neg ha, if_neg hb] at h
    exact eq_of_shiftRight_eq h (iff_of_false ha hb)

theorem shiftBits_injective (n : ℕ) : Function.Injective (shiftBits n) := by
  induction n with
  | zero => exact fun _ _ h => h
  | succ n ih => exact fun _ _ h => shiftBit_injective (ih h)

theorem step_left_injective (b : UInt8) : Function.Injective fun crc => step crc b := by
  intro c d h
  exact (UInt32.xor_left_inj _).mp (shiftBits_injective 8 h)

theorem step_right_injective (crc : UInt32) : Function.Injective (step crc) := by
  intro a b h
  have hword := (UInt32.xor_right_inj _).mp (shiftBits_injective 8 h)
  have hnat := congrArg UInt32.toNat hword
  rw [UInt8.toNat_toUInt32, UInt8.toNat_toUInt32] at hnat
  exact UInt8.toNat_inj.mp hnat

theorem update_injective (bytes : Bytes) : Function.Injective fun crc => update crc bytes := by
  induction bytes with
  | nil => exact fun _ _ h => h
  | cons b bytes ih => exact fun _ _ h => step_left_injective b (ih h)

end Checksum

/-- Byte strings that differ in one byte have different checksums. -/
theorem checksum_ne_of_byte {b c : UInt8} (h : b ≠ c) (xs ys : Bytes) :
    checksum (xs ++ b :: ys) ≠ checksum (xs ++ c :: ys) := by
  intro heq
  have hupdate := (UInt32.xor_left_inj _).mp heq
  rw [Checksum.update, Checksum.update, List.foldl_append, List.foldl_append] at hupdate
  exact h (Checksum.step_right_injective _ (Checksum.update_injective ys hupdate))

/-- The check value of the standard. -/
example : checksum [0x31, 0x32, 0x33, 0x34, 0x35, 0x36, 0x37, 0x38, 0x39] = 0xCBF43926 := by
  decide +kernel

theorem Bytes.toNat_injective {xs ys : Bytes} (hlength : xs.length = ys.length)
    (h : xs.toNat = ys.toNat) : xs = ys := by
  induction xs generalizing ys with
  | nil => exact (List.length_eq_zero_iff.mp hlength.symm).symm
  | cons x xs ih =>
    obtain ⟨y, ys, rfl⟩ := List.exists_cons_of_length_pos (l := ys) (hlength ▸ Nat.succ_pos _)
    have hx := x.toNat_lt
    have hy := y.toNat_lt
    rw [toNat, toNat] at h
    have hhead : x.toNat = y.toNat := by omega
    have htail : toNat xs = toNat ys := by omega
    rw [UInt8.toNat_inj.mp hhead, ih (Nat.succ.inj hlength) htail]

/-! ## One byte -/

theorem Bytes.set_eq_byte {bytes : Bytes} {k : ℕ} {b : UInt8} (hk : k < bytes.length)
    (hne : bytes[k]? ≠ some b) : ∃ xs ys c, bytes = xs ++ c :: ys ∧ bytes.set k b = xs ++ b :: ys ∧
      xs.length = k ∧ c ≠ b := by
  refine ⟨bytes.take k, bytes.drop (k + 1), bytes[k], ?_, ?_, ?_, ?_⟩
  · rw [← List.drop_eq_getElem_cons hk, List.take_append_drop]
  · rw [List.set_eq_take_append_cons_drop, if_pos hk]
  · exact List.length_take_of_le hk.le
  · rw [List.getElem?_eq_getElem hk] at hne
    exact fun h => hne (congrArg some h)

section Byte

variable {α : Type} {xs ys : List α} {a : α} {n : ℕ}

theorem take_byte (h : xs.length < n) :
    (xs ++ a :: ys).take n = xs ++ a :: ys.take (n - xs.length - 1) := by
  obtain ⟨m, rfl⟩ : ∃ m, n = xs.length + (m + 1) := ⟨n - xs.length - 1, by omega⟩
  rw [List.take_length_add_append, List.take_succ_cons]
  congr 3
  omega

theorem drop_byte (h : xs.length < n) :
    (xs ++ a :: ys).drop n = ys.drop (n - xs.length - 1) := by
  obtain ⟨m, rfl⟩ : ∃ m, n = xs.length + (m + 1) := ⟨n - xs.length - 1, by omega⟩
  rw [List.drop_length_add_append, List.drop_succ_cons]
  congr 1
  omega

end Byte

/-! ## Stored checksums -/

theorem Bytes.byte_eq_of_toNat_take {xs ys : Bytes} {b c : UInt8} {n : ℕ} (hn : xs.length < n)
    (h : Bytes.toNat ((xs ++ b :: ys).take n) = Bytes.toNat ((xs ++ c :: ys).take n)) : b = c := by
  have hlength : ((xs ++ b :: ys).take n).length = ((xs ++ c :: ys).take n).length := by simp
  have heq := Bytes.toNat_injective hlength h
  rw [take_byte hn, take_byte hn] at heq
  exact (List.cons.inj (List.append_cancel_left heq)).1

/-- Whether so many bytes are followed by their checksum. -/
def Checksummed (bytes : Bytes) (n : ℕ) : Prop :=
  (checksum (bytes.take n)).toNat = Bytes.toNat ((bytes.drop n).take 4)

/-- Neither a byte in front of a checksum nor one of the checksum can be another. -/
theorem Checksummed.byte_eq {xs ys : Bytes} {b c : UInt8} {n : ℕ}
    (h : Checksummed (xs ++ b :: ys) n) (h' : Checksummed (xs ++ c :: ys) n)
    (hlt : xs.length < n + 4) : b = c := by
  rw [Checksummed] at h h'
  by_cases hfront : xs.length < n
  · rw [take_byte hfront, drop_byte hfront] at h h'
    by_contra hne
    exact checksum_ne_of_byte hne _ _ (UInt32.toNat_inj.mp (h.trans h'.symm))
  · rw [List.take_append_of_le_length (Nat.le_of_not_lt hfront),
      List.drop_append_of_le_length (Nat.le_of_not_lt hfront)] at h h'
    apply Bytes.byte_eq_of_toNat_take _ (h.symm.trans h')
    rw [List.length_drop]
    omega

end BlockQuery
