import Mathlib.Tactic
import BlockQuery.Expr.Eval

/-!
# Arithmetic on integers

An operation on integers gives the exact result if a value of its type can hold it, and otherwise
an error that tells why there is none.  One result is held back: the remainder of the least integer
by -1 is zero, but the quotient that goes with it is beyond the greatest integer.
-/

namespace BlockQuery

/-! ## Integers of a type -/

namespace DataType

/-- Whether an integer is a value of a type. -/
def Holds (type : DataType) (n : ℤ) : Prop :=
  ∃ d : Datum, d.type? = some type ∧ d.toInt? = some n

/-- The least integer of a type, of which there are a narrow and a wide one. -/
def least (type : DataType) : ℤ := if type = .int4 then int4Low else int8Low

def greatest (type : DataType) : ℤ := if type = .int4 then int4High else int8High

/-- The value of a type that is an integer. -/
def ofInt (type : DataType) (n : ℤ) : Datum :=
  if type = .int4 then .int4 (Int32.ofInt n) else .int8 (Int64.ofInt n)

def IsInteger (type : DataType) : Prop := type = .int4 ∨ type = .int8

variable {type : DataType} {d : Datum} {n : ℤ}

theorem least_eq (type : DataType) : type.least = -type.greatest - 1 := by
  unfold least greatest
  split <;> decide

theorem zero_within (type : DataType) : type.least ≤ 0 ∧ 0 ≤ type.greatest := by
  unfold least greatest
  split <;> decide

theorem bounds_of_toInt? (htype : d.type? = some type) (hn : d.toInt? = some n) :
    type.least ≤ n ∧ n ≤ type.greatest := by
  cases d with
  | int4 m =>
    cases htype
    cases hn
    exact ⟨m.le_toInt, m.toInt_le⟩
  | int8 m =>
    cases htype
    cases hn
    exact ⟨m.le_toInt, m.toInt_le⟩
  | null | bool | float8 | text => cases hn

theorem IsInteger.ofInt_spec (htype : type.IsInteger)
    (hn : type.least ≤ n ∧ n ≤ type.greatest) :
    (type.ofInt n).type? = some type ∧ (type.ofInt n).toInt? = some n := by
  obtain ⟨hlow, hhigh⟩ := hn
  rcases htype with rfl | rfl
  · exact ⟨rfl, congrArg some (Int32.toInt_ofInt_of_le hlow (Int.lt_of_le_of_lt hhigh (by decide)))⟩
  · exact ⟨rfl, congrArg some (Int64.toInt_ofInt_of_le hlow (Int.lt_of_le_of_lt hhigh (by decide)))⟩

theorem IsInteger.holds_iff (htype : type.IsInteger) :
    type.Holds n ↔ type.least ≤ n ∧ n ≤ type.greatest := by
  constructor
  · rintro ⟨d, hd, hn⟩
    exact bounds_of_toInt? hd hn
  · intro hn
    exact ⟨_, htype.ofInt_spec hn⟩

end DataType

/-- A value of an integer type is known by its integer. -/
theorem Datum.eq_of_toInt? {d e : Datum} {type : DataType} {n : ℤ} (hd : d.type? = some type)
    (he : e.type? = some type) (hdn : d.toInt? = some n) (hen : e.toInt? = some n) : d = e := by
  cases d with
  | int4 a =>
    cases e <;> cases hd.trans he.symm
    cases hdn
    exact congrArg _ (Int32.toInt_inj.mp (Option.some.inj hen).symm)
  | int8 a =>
    cases e <;> cases hd.trans he.symm
    cases hdn
    exact congrArg _ (Int64.toInt_inj.mp (Option.some.inj hen).symm)
  | null | bool | float8 | text => cases hdn

namespace Arithmetic

variable {op : Arithmetic} {a b low high : ℤ} {x y : Datum}

/-! ## Results without bounds -/

/-- The exact result.  A quotient is truncated towards zero, and a remainder has the sign of the
dividend. -/
def exact : Arithmetic → ℤ → ℤ → ℤ
  | plus, a, b => a + b
  | minus, a, b => a - b
  | times, a, b => a * b
  | divide, a, b => a.tdiv b
  | modulo, a, b => a.tmod b

/-- Whether there is no result. -/
def Undefined (op : Arithmetic) (b : ℤ) : Prop := (op = divide ∨ op = modulo) ∧ b = 0

instance (op : Arithmetic) (b : ℤ) : Decidable (op.Undefined b) :=
  inferInstanceAs (Decidable (_ ∧ _))

/-- Whether a remainder is zero whose quotient is too large. -/
def Withheld (op : Arithmetic) (low a b : ℤ) : Prop := op = modulo ∧ a = low ∧ b = -1

instance (op : Arithmetic) (low a b : ℤ) : Decidable (op.Withheld low a b) :=
  inferInstanceAs (Decidable (_ ∧ _))

/-- A quotient is too large only where the opposite of the least integer is asked for. -/
theorem tdiv_within_iff (hlow : low = -high - 1) (ha : low ≤ a ∧ a ≤ high) (hb : b ≠ 0) :
    (low ≤ a.tdiv b ∧ a.tdiv b ≤ high) ↔ ¬(a = low ∧ b = -1) := by
  constructor
  · rintro ⟨-, hle⟩ ⟨rfl, rfl⟩
    rw [Int.tdiv_neg, Int.tdiv_one] at hle
    omega
  · intro hne
    by_cases hone : b.natAbs = 1
    · obtain rfl | rfl : b = 1 ∨ b = -1 := by omega
      · rwa [Int.tdiv_one]
      · rw [Int.tdiv_neg, Int.tdiv_one]
        omega
    · have hhalf : (a.tdiv b).natAbs ≤ a.natAbs / 2 := by
        rw [Int.natAbs_tdiv]
        exact Nat.div_le_div_left (by omega) (by decide)
      omega

/-- A remainder is nearer to zero than its divisor. -/
theorem tmod_within (hlow : low = -high - 1) (hb : low ≤ b ∧ b ≤ high) (hne : b ≠ 0) :
    low ≤ a.tmod b ∧ a.tmod b ≤ high := by
  have habs := Int.natAbs_tmod a b
  have hlt : a.natAbs % b.natAbs < b.natAbs := Nat.mod_lt _ (Int.natAbs_pos.mpr hne)
  omega

/-! ## Results within bounds -/

theorem onIntegers_eq (hlow : low = -high - 1) (ha : low ≤ a ∧ a ≤ high)
    (hb : low ≤ b ∧ b ≤ high) : op.onIntegers low high a b =
      if op.Undefined b then .error .divisionByZero
      else if (low ≤ op.exact a b ∧ op.exact a b ≤ high) ∧ ¬op.Withheld low a b then
        .ok (op.exact a b)
      else .error .overflow := by
  cases op with
  | plus | minus | times => simp [onIntegers, Undefined, Withheld, exact]
  | divide =>
    by_cases hzero : b = 0
    · simp [onIntegers, Undefined, hzero]
    · simp [onIntegers, Undefined, Withheld, exact, hzero]
  | modulo =>
    by_cases hzero : b = 0
    · simp [onIntegers, Undefined, hzero]
    · have hquotient := tdiv_within_iff hlow ha hzero
      have hremainder : low ≤ a.tmod b ∧ a.tmod b ≤ high := tmod_within hlow hb hzero
      have hdefined : ¬modulo.Undefined b := fun h => hzero h.2
      have hmap : modulo.onIntegers low high a b =
          if low ≤ a.tdiv b ∧ a.tdiv b ≤ high then .ok (a.tmod b) else .error .overflow := by
        simp only [onIntegers, if_neg hzero]
        split <;> rfl
      rw [hmap, if_neg hdefined]
      by_cases hbeyond : a = low ∧ b = -1
      · rw [if_neg fun h => hquotient.mp h hbeyond, if_neg fun h => h.2 ⟨rfl, hbeyond⟩]
      · rw [if_pos (hquotient.mpr hbeyond), if_pos ⟨hremainder, fun h => hbeyond h.2⟩]
        rfl

/-! ## Results of values -/

/-- The type of the integers that an operation on two integers makes. -/
def width (x y : Datum) : DataType :=
  if x.type? = some .int4 ∧ y.type? = some .int4 then .int4 else .int8

theorem isInteger_width (x y : Datum) : (width x y).IsInteger := by
  unfold width
  split
  · exact .inl rfl
  · exact .inr rfl

theorem onValues_eq (hx : x.toInt? = some a) (hy : y.toInt? = some b) : op.onValues x y =
    (op.onIntegers (width x y).least (width x y).greatest a b).map (width x y).ofInt := by
  cases x <;> cases hx
  all_goals
    cases y <;> cases hy
    all_goals rfl

/-- Integers of two types are also integers of the type of an operation on them. -/
theorem bounds_of_width (hx : x.toInt? = some a) (hy : y.toInt? = some b) :
    ((width x y).least ≤ a ∧ a ≤ (width x y).greatest) ∧
      (width x y).least ≤ b ∧ b ≤ (width x y).greatest := by
  have hwide : ∀ {d : Datum} {n : ℤ}, d.toInt? = some n → int8Low ≤ n ∧ n ≤ int8High := by
    intro d n hn
    cases d with
    | int4 m =>
      cases hn
      exact ⟨(by decide : int8Low ≤ int4Low).trans m.le_toInt,
        m.toInt_le.trans (by decide)⟩
    | int8 m =>
      cases hn
      exact ⟨m.le_toInt, m.toInt_le⟩
    | null | bool | float8 | text => cases hn
  unfold width
  split
  next h => exact ⟨DataType.bounds_of_toInt? h.1 hx, DataType.bounds_of_toInt? h.2 hy⟩
  next => exact ⟨hwide hx, hwide hy⟩

theorem eval_eq (hx : x.toInt? = some a) (hy : y.toInt? = some b) : op.eval x y =
    if op.Undefined b then .error (.arithmetic .divisionByZero x op y)
    else if ((width x y).least ≤ op.exact a b ∧ op.exact a b ≤ (width x y).greatest) ∧
        ¬op.Withheld (width x y).least a b then .ok ((width x y).ofInt (op.exact a b))
    else .error (.arithmetic .overflow x op y) := by
  have hnull : (x.isNull || y.isNull) = false := by
    cases x <;> cases hx <;> cases y <;> cases hy <;> rfl
  obtain ⟨ha, hb⟩ := bounds_of_width hx hy
  rw [eval, hnull, if_neg Bool.false_ne_true, onValues_eq hx hy,
    onIntegers_eq (DataType.least_eq _) ha hb]
  split
  · rfl
  · split <;> rfl

/-- Whether a result of integers is the exact one, or else an error that tells why there is none. -/
structure Exactly (op : Arithmetic) (x y : Datum) (a b : ℤ) (result : Except EvalError Datum) :
    Prop where
  value : ∀ d, result = .ok d ↔
    ¬op.Undefined b ∧ d.type? = some (width x y) ∧ d.toInt? = some (op.exact a b)
  zero : result = .error (.arithmetic .divisionByZero x op y) ↔ op.Undefined b
  overflow : result = .error (.arithmetic .overflow x op y) ↔
    ¬op.Undefined b ∧ ¬(width x y).Holds (op.exact a b)

/-- There is just one such result. -/
theorem exactly_iff_eq {result : Except EvalError Datum} : op.Exactly x y a b result ↔
    result = if op.Undefined b then .error (.arithmetic .divisionByZero x op y)
      else if (width x y).least ≤ op.exact a b ∧ op.exact a b ≤ (width x y).greatest then
        .ok ((width x y).ofInt (op.exact a b))
      else .error (.arithmetic .overflow x op y) := by
  have hwidth := isInteger_width x y
  constructor
  · intro h
    split
    next hzero => exact h.zero.mpr hzero
    next hdefined =>
      split
      next hbounds => exact (h.value _).mpr ⟨hdefined, hwidth.ofInt_spec hbounds⟩
      next hbeyond =>
        refine h.overflow.mpr ⟨hdefined, fun hholds => ?_⟩
        exact hbeyond (hwidth.holds_iff.mp hholds)
  · rintro rfl
    split
    next hzero => exact ⟨fun d => by simp [hzero], by simp [hzero], by simp [hzero]⟩
    next hdefined =>
      split
      next hbounds =>
        obtain ⟨htype, hint⟩ := hwidth.ofInt_spec hbounds
        refine ⟨fun d => ⟨?_, ?_⟩, by simp [hdefined], by simp [hwidth.holds_iff, hbounds]⟩
        · intro hd
          cases hd
          exact ⟨hdefined, htype, hint⟩
        · rintro ⟨-, hd, hn⟩
          rw [Datum.eq_of_toInt? htype hd hint hn]
      next hbeyond =>
        refine ⟨fun d => ?_, by simp [hdefined], by simp [hdefined, hwidth.holds_iff, hbeyond]⟩
        refine iff_of_false (fun h => nomatch h) ?_
        rintro ⟨-, hd, hn⟩
        exact hbeyond (DataType.bounds_of_toInt? hd hn)

/-- An operation on integers comes to the exact result of its type if there is one, and otherwise
tells in words that it divides by zero or that the result is too large.  Only the remainder of the
least integer of the type by -1, which is zero, is taken for too large. -/
theorem exactly_iff {l r : BoundExpr} {row : Row} (hl : l.eval row = .ok x)
    (hr : r.eval row = .ok y) (hx : x.toInt? = some a) (hy : y.toInt? = some b) :
    (op.Exactly x y a b ((BoundExpr.binary (.arithmetic op) l r).eval row) ↔
      ¬op.Withheld (width x y).least a b) ∧
    (op.Withheld (width x y).least a b → op.exact a b = 0 ∧
      (BoundExpr.binary (.arithmetic op) l r).eval row =
        .error (.arithmetic .overflow x op y)) ∧
    (EvalError.arithmetic .divisionByZero x op y).message =
      "Division by zero in " ++ (x.display ++ " " ++ op.symbol ++ " " ++ y.display) ∧
    (EvalError.arithmetic .overflow x op y).message =
      "Overflow in " ++ (x.display ++ " " ++ op.symbol ++ " " ++ y.display) := by
  have heval : (BoundExpr.binary (.arithmetic op) l r).eval row = op.eval x y := by
    rw [BoundExpr.eval, hl]
    simp only [BinaryOp.decided?, hr]
    rfl
  rw [heval, exactly_iff_eq, eval_eq hx hy]
  by_cases hwithheld : op.Withheld (width x y).least a b
  · have hzero : op.exact a b = 0 := by
      obtain ⟨rfl, -, rfl⟩ := hwithheld
      exact (Int.tmod_neg a 1).trans (Int.tmod_one a)
    have hdefined : ¬op.Undefined b := by
      rintro ⟨-, rfl⟩
      exact absurd hwithheld.2.2 (by decide)
    have hbounds := (width x y).zero_within
    rw [if_neg hdefined, if_neg hdefined, hzero, if_neg fun h => h.2 hwithheld, if_pos hbounds]
    refine ⟨iff_of_false (fun h => ?_) (not_not.mpr hwithheld), fun _ => ⟨rfl, rfl⟩, rfl, rfl⟩
    cases h
  · exact ⟨by simp [hwithheld], fun h => absurd h hwithheld, rfl, rfl⟩

/-- A quotient and a remainder of literals. -/
def ofLiterals (op : Arithmetic) (x y : Datum) : BoundExpr :=
  .binary (.arithmetic op) (.literal x) (.literal y)

/-- The quotient of the least narrow integer by -1 is beyond the greatest one, so the division
fails; as a wide integer it is there. -/
theorem exactly_of_least_quotient :
    (ofLiterals divide (.int4 Int32.minValue) (.int4 (-1))).eval [] =
      .error (.arithmetic .overflow (.int4 Int32.minValue) divide (.int4 (-1))) ∧
    (ofLiterals divide (.int4 Int32.minValue) (.int8 (-1))).eval [] =
      .ok (.int8 2147483648) := by
  have hnarrow : divide.Exactly (.int4 Int32.minValue) (.int4 (-1)) (-2147483648) (-1)
      ((ofLiterals divide (.int4 Int32.minValue) (.int4 (-1))).eval []) :=
    (exactly_iff rfl rfl rfl rfl).1.mpr (by decide)
  have hwide : divide.Exactly (.int4 Int32.minValue) (.int8 (-1)) (-2147483648) (-1)
      ((ofLiterals divide (.int4 Int32.minValue) (.int8 (-1))).eval []) :=
    (exactly_iff rfl rfl rfl rfl).1.mpr (by decide)
  refine ⟨hnarrow.overflow.mpr ⟨by decide, ?_⟩, (hwide.value _).mpr ⟨by decide, rfl, rfl⟩⟩
  rw [(isInteger_width _ _).holds_iff]
  decide

/-- The remainder of the least wide integer by -1 is zero, but is taken for too large.  That of the
least narrow integer is not if the divisor is wide. -/
theorem not_exactly_of_least_remainder :
    modulo.exact Int64.minValue.toInt (-1) = 0 ∧
    (ofLiterals modulo (.int8 Int64.minValue) (.int8 (-1))).eval [] =
      .error (.arithmetic .overflow (.int8 Int64.minValue) modulo (.int8 (-1))) ∧
    ¬modulo.Exactly (.int8 Int64.minValue) (.int8 (-1)) Int64.minValue.toInt (-1)
      ((ofLiterals modulo (.int8 Int64.minValue) (.int8 (-1))).eval []) ∧
    (ofLiterals modulo (.int4 Int32.minValue) (.int8 (-1))).eval [] = .ok (.int8 0) := by
  have hfails : (ofLiterals modulo (.int8 Int64.minValue) (.int8 (-1))).eval [] =
      .error (.arithmetic .overflow (.int8 Int64.minValue) modulo (.int8 (-1))) := by decide
  refine ⟨by decide, hfails, fun h => ?_, by decide⟩
  exact (h.overflow.mp hfails).2 ⟨.int8 0, rfl, rfl⟩

end Arithmetic

end BlockQuery
