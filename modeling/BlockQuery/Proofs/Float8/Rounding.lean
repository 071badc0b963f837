import Mathlib.Tactic
import BlockQuery.Float8

/-!
# Rounding integers

The double nearest to an integer grows with the integer.
-/

namespace BlockQuery.Float8

variable {n m : ℕ}

theorem roundShift_eq (n s : ℕ) :
    roundShift n s = if 2 ^ s < 2 * (n % 2 ^ s) then n / 2 ^ s + 1
      else if 2 * (n % 2 ^ s) = 2 ^ s then n / 2 ^ s + n / 2 ^ s % 2 else n / 2 ^ s := by
  rw [roundShift, Nat.one_shiftLeft, Nat.shiftRight_eq_div_pow]

theorem roundShift_bounds (n s : ℕ) :
    n / 2 ^ s ≤ roundShift n s ∧ roundShift n s ≤ n / 2 ^ s + 1 := by
  rw [roundShift_eq]
  have heven := Nat.mod_lt (n / 2 ^ s) (show 0 < 2 by decide)
  split
  · omega
  · split <;> omega

/-- Between equal quotients the remainders decide. -/
theorem roundShift_mono (s : ℕ) (h : n ≤ m) : roundShift n s ≤ roundShift m s := by
  have hquotients : n / 2 ^ s ≤ m / 2 ^ s := Nat.div_le_div_right h
  rcases hquotients.eq_or_lt with heq | hlt
  · have hn := Nat.div_add_mod n (2 ^ s)
    have hm := Nat.div_add_mod m (2 ^ s)
    rw [heq] at hn
    have hremainders : n % 2 ^ s ≤ m % 2 ^ s := by omega
    have heven := Nat.mod_lt (m / 2 ^ s) (show 0 < 2 by decide)
    rw [roundShift_eq, roundShift_eq, heq]
    split_ifs <;> omega
  · have hn := (roundShift_bounds n s).2
    have hm := (roundShift_bounds m s).1
    omega

/-! ## Significands -/

/-- The 53 digits of a whole number, with its leading digit first. -/
def significand (m : ℕ) : ℕ :=
  if m.log2 ≤ 52 then m <<< (52 - m.log2) else roundShift m (m.log2 - 52)

theorem significand_bounds (hm : m ≠ 0) : 2 ^ 52 ≤ significand m ∧ significand m ≤ 2 ^ 53 := by
  have hlow := Nat.log2_self_le hm
  have hhigh : m < 2 ^ (m.log2 + 1) := Nat.lt_log2_self
  rw [significand]
  split
  next hsmall =>
    have hpow : 2 ^ m.log2 * 2 ^ (52 - m.log2) = 2 ^ 52 := by
      rw [← Nat.pow_add]
      congr 1
      omega
    have hpow' : 2 ^ (m.log2 + 1) * 2 ^ (52 - m.log2) = 2 ^ 53 := by
      rw [← Nat.pow_add]
      congr 1
      omega
    rw [Nat.shiftLeft_eq, ← hpow, ← hpow']
    exact ⟨Nat.mul_le_mul_right _ hlow, Nat.mul_le_mul_right _ hhigh.le⟩
  next hlarge =>
    have hpow : 2 ^ 52 * 2 ^ (m.log2 - 52) = 2 ^ m.log2 := by
      rw [← Nat.pow_add]
      congr 1
      omega
    have hpow' : 2 ^ 53 * 2 ^ (m.log2 - 52) = 2 ^ (m.log2 + 1) := by
      rw [← Nat.pow_add]
      congr 1
      omega
    have hbounds := roundShift_bounds m (m.log2 - 52)
    have hquotient : 2 ^ 52 ≤ m / 2 ^ (m.log2 - 52) := by
      rw [Nat.le_div_iff_mul_le (Nat.two_pow_pos _), hpow]
      exact hlow
    have hquotient' : m / 2 ^ (m.log2 - 52) < 2 ^ 53 := by
      rw [Nat.div_lt_iff_lt_mul (Nat.two_pow_pos _), hpow']
      exact hhigh
    omega

theorem significand_mono (hsame : n.log2 = m.log2) (h : n ≤ m) : significand n ≤ significand m := by
  rw [significand, significand, hsame]
  split
  · rw [Nat.shiftLeft_eq, Nat.shiftLeft_eq]
    exact Nat.mul_le_mul_right _ h
  · exact roundShift_mono _ h

theorem scaledBits_eq (hm : m ≠ 0) (htop : m.log2 < 1024) :
    scaledBits m 0 = min ((m.log2 + 1022) * 2 ^ 52 + significand m) infinityBits := by
  have hfinite : ¬(1024 : ℤ) ≤ m.log2 + 0 := by omega
  have hunit : max ((m.log2 : ℤ) + 0 - 52) (-1074) = m.log2 - 52 := by omega
  have hnormal : ¬(m.log2 : ℤ) + 0 < -1022 := by omega
  have hexponent : ((m.log2 : ℤ) + 0 + 1022).toNat = m.log2 + 1022 := by omega
  rw [scaledBits, if_neg hm]
  dsimp only
  rw [if_neg hfinite, hunit, if_neg hnormal, hexponent, Nat.shiftLeft_eq, significand]
  by_cases hsmall : m.log2 ≤ 52
  · have hshift : (0 - ((m.log2 : ℤ) - 52)).toNat = 52 - m.log2 := by omega
    rw [if_pos (by omega), if_pos hsmall, hshift]
  · have hshift : ((m.log2 : ℤ) - 52 - 0).toNat = m.log2 - 52 := by omega
    rw [if_neg (by omega), if_neg hsmall, hshift]

theorem scaledBits_of_log2 (hm : m ≠ 0) (htop : 1024 ≤ m.log2) : scaledBits m 0 = infinityBits := by
  have hlarge : (1024 : ℤ) ≤ m.log2 + 0 := by omega
  rw [scaledBits, if_neg hm]
  exact if_pos hlarge

theorem scaledBits_le (m : ℕ) : scaledBits m 0 ≤ infinityBits := by
  by_cases hm : m = 0
  · rw [hm]
    exact Nat.zero_le _
  · by_cases htop : m.log2 < 1024
    · rw [scaledBits_eq hm htop]
      exact Nat.min_le_right _ _
    · exact (scaledBits_of_log2 hm (Nat.not_lt.mp htop)).le

/-- A number with more digits has a greater exponent, which outweighs the significand. -/
theorem scaledBits_mono (h : n ≤ m) : scaledBits n 0 ≤ scaledBits m 0 := by
  by_cases hn : n = 0
  · rw [hn]
    exact Nat.zero_le _
  · have hm : m ≠ 0 := by omega
    by_cases htop : m.log2 < 1024
    · have hlogs : n.log2 ≤ m.log2 :=
        (Nat.le_log2 hm).mpr ((Nat.log2_self_le hn).trans h)
      rw [scaledBits_eq hn (hlogs.trans_lt htop), scaledBits_eq hm htop]
      apply min_le_min_right
      rcases hlogs.eq_or_lt with hsame | hlt
      · rw [hsame]
        exact Nat.add_le_add_left (significand_mono hsame h) _
      · have hn := (significand_bounds hn).2
        have hm := (significand_bounds hm).1
        omega
    · rw [scaledBits_of_log2 hm (Nat.not_lt.mp htop)]
      exact scaledBits_le n

/-- Numbers of up to 53 digits keep all of them. -/
theorem significand_strictMono (hsame : n.log2 = m.log2) (hsmall : m.log2 ≤ 52) (h : n < m) :
    significand n < significand m := by
  rw [significand, significand, hsame, if_pos hsmall, if_pos hsmall, Nat.shiftLeft_eq,
    Nat.shiftLeft_eq]
  exact Nat.mul_lt_mul_of_pos_right h (Nat.two_pow_pos _)

theorem significand_lt (hsmall : n.log2 ≤ 52) : significand n < 2 ^ 53 := by
  have hpow : 2 ^ (n.log2 + 1) * 2 ^ (52 - n.log2) = 2 ^ 53 := by
    rw [← Nat.pow_add]
    congr 1
    omega
  rw [significand, if_pos hsmall, Nat.shiftLeft_eq, ← hpow]
  exact Nat.mul_lt_mul_of_pos_right Nat.lt_log2_self (Nat.two_pow_pos _)

theorem scaledBits_strictMono (h : n < m) (hm : m ≤ 2 ^ 53) : scaledBits n 0 < scaledBits m 0 := by
  have hm' : m ≠ 0 := by omega
  have hinfinity : infinityBits = 2047 * 2 ^ 52 := rfl
  have hlog : m.log2 ≤ 53 := by
    rw [← Nat.lt_succ_iff, Nat.log2_lt hm']
    omega
  have hbounds := significand_bounds hm'
  by_cases hn : n = 0
  · rw [hn, scaledBits_eq hm' (by omega)]
    change 0 < _
    omega
  · have hlogs : n.log2 ≤ m.log2 := (Nat.le_log2 hm').mpr ((Nat.log2_self_le hn).trans h.le)
    have hlog' : n.log2 ≤ 52 := by
      rw [← Nat.lt_succ_iff, Nat.log2_lt hn]
      omega
    rw [scaledBits_eq hn (by omega), scaledBits_eq hm' (by omega)]
    have hbound := significand_lt hlog'
    rcases hlogs.eq_or_lt with hsame | hlt
    · have hdigits := significand_strictMono hsame (hsame ▸ hlog') h
      omega
    · omega

/-! ## The order of rounded integers -/

theorem rank_ofMagnitude (negative : Bool) {magnitude : ℕ} (h : magnitude ≤ infinityBits) :
    (ofMagnitude negative magnitude).rank =
      if negative then -(magnitude : ℤ) - 1 else magnitude := by
  have hsign : signBit = 2 ^ 63 := rfl
  have hinfinity : infinityBits < 2 ^ 63 := by decide
  have hbits : (ofMagnitude negative magnitude).bits.toNat =
      if negative then signBit + magnitude else magnitude := by
    rw [ofMagnitude]
    apply UInt64.toNat_ofNat_of_lt'
    rw [hsign]
    change _ < 2 ^ 64
    split <;> omega
  cases negative with
  | true =>
    have hmagnitude : (signBit + magnitude) % signBit = magnitude := by
      rw [Nat.add_mod_left, Nat.mod_eq_of_lt (by omega)]
    rw [if_pos rfl] at hbits ⊢
    rw [rank, isNegative, Float8.magnitude, hbits, hmagnitude]
    simp
  | false =>
    have hmagnitude : magnitude % signBit = magnitude := Nat.mod_eq_of_lt (by omega)
    rw [if_neg Bool.false_ne_true] at hbits ⊢
    rw [rank, isNegative, Float8.magnitude, hbits, hmagnitude]
    simp
    omega

theorem rank_ofInt (n : ℤ) :
    (ofInt n).rank = if n < 0 then -(scaledBits n.natAbs 0 : ℤ) - 1 else scaledBits n.natAbs 0 := by
  rw [ofInt, ofScaled, rank_ofMagnitude _ (scaledBits_le _)]
  simp

/-- The double nearest to a greater integer comes no earlier in the order of doubles. -/
theorem rank_ofInt_mono {a b : ℤ} (h : a ≤ b) : (ofInt a).rank ≤ (ofInt b).rank := by
  rw [rank_ofInt, rank_ofInt]
  rcases lt_or_ge a 0 with ha | ha
  · rw [if_pos ha]
    rcases lt_or_ge b 0 with hb | hb
    · have hmono : scaledBits b.natAbs 0 ≤ scaledBits a.natAbs 0 := scaledBits_mono (by omega)
      rw [if_pos hb]
      omega
    · rw [if_neg (not_lt.mpr hb)]
      omega
  · have hmono : scaledBits a.natAbs 0 ≤ scaledBits b.natAbs 0 := scaledBits_mono (by omega)
    rw [if_neg (not_lt.mpr ha), if_neg (by omega)]
    omega

/-- Integers of up to 53 digits are told apart as doubles. -/
theorem ofInt_inj {a b : ℤ} (ha : a.natAbs ≤ 2 ^ 53) (hb : b.natAbs ≤ 2 ^ 53)
    (h : ofInt a = ofInt b) : a = b := by
  have hrank := congrArg rank h
  rw [rank_ofInt, rank_ofInt] at hrank
  have hnatAbs : scaledBits a.natAbs 0 = scaledBits b.natAbs 0 → a.natAbs = b.natAbs := by
    intro hbits
    rcases Nat.lt_trichotomy a.natAbs b.natAbs with hlt | heq | hlt
    · exact absurd hbits (scaledBits_strictMono hlt hb).ne
    · exact heq
    · exact absurd hbits (scaledBits_strictMono hlt ha).ne'
  split_ifs at hrank <;> omega

end BlockQuery.Float8
