import Mathlib.Tactic
import BlockQuery.Index.Reader

/-!
# Searching ordered entries

A test that holds for a first part of a list splits it at the length of that
part.  Searching by halving finds this place.
-/

namespace BlockQuery.Index

variable {α : Type} {before : α → Bool} {xs : List α} {k : ℕ}

/-- Whether a test holds for the first `k` entries of a list and for no other. -/
structure SplitsAt (before : α → Bool) (xs : List α) (k : ℕ) : Prop where
  le_length : k ≤ xs.length
  iff_lt : ∀ i x, xs[i]? = some x → (before x = true ↔ i < k)

namespace SplitsAt

theorem any_iff (h : SplitsAt before xs k) {i : ℕ} (hi : i < xs.length) :
    xs[i]?.any before = true ↔ i < k := by
  rw [List.getElem?_eq_getElem hi, Option.any_some]
  exact h.iff_lt i _ (List.getElem?_eq_getElem hi)

/-- The place that halving leaves is the last one where the test holds, or the start. -/
theorem narrow_spec (h : SplitsAt before xs k) {base size : ℕ} (hbase : base = 0 ∨ base < k)
    (hlow : k ≤ base + size) (hhigh : base + size ≤ xs.length) (hsize : 1 ≤ size) :
    (narrow before xs base size = 0 ∨ narrow before xs base size < k) ∧
      k ≤ narrow before xs base size + 1 ∧ narrow before xs base size < xs.length := by
  fun_induction narrow before xs base size with
  | case1 base size hone =>
    have hle : k ≤ base + 1 := by omega
    exact ⟨hbase, hle, by omega⟩
  | case2 base size hmany half ih =>
    have hhalf : 1 ≤ half ∧ half ≤ size - half := by omega
    have hin : base + half < xs.length := by omega
    have hany := h.any_iff hin
    split at ih
    next hbefore =>
      have hlt := hany.mp hbefore
      rw [if_pos hbefore]
      exact ih (Or.inr hlt) (by omega) (by omega) (by omega)
    next hbefore =>
      have hle : ¬base + half < k := fun hlt => hbefore (hany.mpr hlt)
      rw [if_neg hbefore]
      exact ih hbase (by omega) (by omega) (by omega)

theorem partitionPoint_eq (h : SplitsAt before xs k) : partitionPoint before xs = k := by
  have hlength := h.le_length
  rw [partitionPoint]
  cases xs with
  | nil => exact (Nat.le_zero.mp hlength).symm
  | cons x xs =>
    have hpositive : 1 ≤ (x :: xs).length := Nat.succ_le_succ (Nat.zero_le _)
    have hnarrow := h.narrow_spec (Or.inl rfl) (hlength.trans (Nat.zero_add _).ge)
      (Nat.zero_add _).le hpositive
    obtain ⟨hzero, hle, hlt⟩ := hnarrow
    have hany := h.any_iff hlt
    dsimp only
    rw [if_neg (by simp)]
    split
    next hbefore =>
      have := hany.mp hbefore
      omega
    next hbefore =>
      have hnot : ¬narrow before (x :: xs) 0 (x :: xs).length < k := fun h => hbefore (hany.mpr h)
      omega

/-- The test splits a part of the list where it splits the list, or at an end of the part. -/
theorem window (h : SplitsAt before xs k) (start size : ℕ) :
    SplitsAt before ((xs.drop start).take size) (min (k - start) (min size (xs.length - start))) where
  le_length := by
    rw [List.length_take, List.length_drop]
    omega
  iff_lt i x hx := by
    obtain ⟨hi, hget⟩ := List.getElem?_eq_some_iff.mp hx
    rw [List.length_take, List.length_drop] at hi
    have horigin : xs[start + i]? = some x := by
      rw [List.getElem?_take_of_lt (by omega), List.getElem?_drop] at hx
      exact hx
    rw [h.iff_lt (start + i) x horigin]
    omega

theorem drop_eq_filter (h : SplitsAt before xs k) : xs.drop k = xs.filter fun x => !before x := by
  induction xs generalizing k with
  | nil => simp
  | cons x xs ih =>
    have hhead := h.iff_lt 0 x rfl
    cases k with
    | zero =>
      have hall : ∀ y ∈ x :: xs, (!before y) = true := by
        intro y hy
        obtain ⟨i, hi⟩ := List.getElem?_of_mem hy
        have hnot : ¬before y = true := fun hy => Nat.not_lt_zero i ((h.iff_lt i y hi).mp hy)
        simpa using hnot
      rw [List.drop_zero, List.filter_eq_self.mpr hall]
    | succ k =>
      have htail : SplitsAt before xs k := by
        refine ⟨Nat.le_of_succ_le_succ h.le_length, fun i y hy => ?_⟩
        rw [h.iff_lt (i + 1) y (by simpa using hy)]
        omega
      have hbefore : before x = true := hhead.mpr (Nat.succ_pos k)
      rw [List.drop_succ_cons, ih htail, List.filter_cons_of_neg (by simpa using hbefore)]

end SplitsAt

/-! ## Tests that hold for a first part -/

/-- Whether a test that holds for an entry holds for all entries before it. -/
def HoldsFirst (before : α → Bool) (xs : List α) : Prop :=
  xs.Pairwise fun a b => before b = true → before a = true

namespace HoldsFirst

theorem eq_false_of_head {x : α} (h : HoldsFirst before (x :: xs)) (hx : before x = false) :
    ∀ y ∈ xs, before y = false := by
  intro y hy
  by_contra hbefore
  have hhead := List.rel_of_pairwise_cons h hy (by simpa using hbefore)
  rw [hx] at hhead
  cases hhead

theorem takeWhile_eq_filter (h : HoldsFirst before xs) : xs.takeWhile before = xs.filter before := by
  induction xs with
  | nil => rfl
  | cons x xs ih =>
    by_cases hx : before x = true
    · rw [List.takeWhile_cons_of_pos hx, List.filter_cons_of_pos hx, ih h.of_cons]
    · have hnone := h.eq_false_of_head (by simpa using hx)
      have hempty : xs.filter before = [] := by
        apply List.filter_eq_nil_iff.mpr
        intro y hy
        rw [hnone y hy]
        exact Bool.false_ne_true
      rw [List.takeWhile_cons_of_neg hx, List.filter_cons_of_neg hx, hempty]

theorem splitsAt (h : HoldsFirst before xs) : SplitsAt before xs (xs.countP before) := by
  induction xs with
  | nil => exact ⟨le_rfl, fun i x hx => by simp at hx⟩
  | cons x xs ih =>
    refine ⟨List.countP_le_length, ?_⟩
    intro i y hy
    by_cases hx : before x = true
    · rw [List.countP_cons_of_pos hx]
      cases i with
      | zero =>
        cases hy
        simpa using hx
      | succ i =>
        rw [(ih h.of_cons).iff_lt i y hy]
        omega
    · have hnone := h.eq_false_of_head (by simpa using hx)
      have hzero : xs.countP before = 0 := by
        apply List.countP_eq_zero.mpr
        intro z hz
        rw [hnone z hz]
        exact Bool.false_ne_true
      have hy' : ¬before y = true := by
        rcases List.mem_cons.mp (List.mem_of_getElem? hy) with rfl | hmem
        · exact hx
        · rw [hnone y hmem]
          exact Bool.false_ne_true
      rw [List.countP_cons_of_neg hx, hzero]
      exact ⟨fun hbefore => absurd hbefore hy', fun hlt => absurd hlt (Nat.not_lt_zero i)⟩

end HoldsFirst

end BlockQuery.Index
