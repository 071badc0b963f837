/-!
# Double-precision numbers

A `Float8` is the IEEE 754 bit pattern of a double-precision number.  Keeping
the bits makes signed zeros and the sign and payload of a NaN part of the
value, so that the total order and the stored form are functions of it.

Numbers are read as `significand * 2 ^ exponent`; `ofScaled` is the rounding
to the nearest double, halves to even, from which every conversion is made.
-/

namespace BlockQuery

structure Float8 where
  bits : UInt64
deriving DecidableEq, Repr, Inhabited

namespace Float8

/-- The bit pattern of positive infinity, as a number. -/
def infinityBits : Nat := 0x7FF0000000000000

/-- The weight of the sign bit. -/
def signBit : Nat := 1 <<< 63

def isNegative (x : Float8) : Bool := decide (signBit ≤ x.bits.toNat)

/-- The bits below the sign. -/
def magnitude (x : Float8) : Nat := x.bits.toNat % signBit

def isNaN (x : Float8) : Bool := decide (infinityBits < x.magnitude)

def isInfinite (x : Float8) : Bool := x.magnitude == infinityBits

def isFinite (x : Float8) : Bool := decide (x.magnitude < infinityBits)

def isZero (x : Float8) : Bool := x.magnitude == 0

def ofMagnitude (negative : Bool) (magnitude : Nat) : Float8 :=
  ⟨UInt64.ofNat (if negative then signBit + magnitude else magnitude)⟩

def zero : Float8 := ⟨0⟩

/-- The NaN that an invalid operation yields: quiet, without payload, sign set. -/
def invalid : Float8 := ⟨0xFFF8000000000000⟩

/-- A NaN with its quiet bit set. -/
def quiet (x : Float8) : Float8 := ⟨x.bits ||| 0x0008000000000000⟩

/-! ## Order -/

/-- The place of a number in the total order: negative patterns, NaNs included,
come before positive ones, and `-0` comes before `0`. -/
def rank (x : Float8) : Int :=
  if x.isNegative then -(x.magnitude : Int) - 1 else x.magnitude

def totalCompare (x y : Float8) : Ordering := compare x.rank y.rank

/-- Numeric equality: a NaN equals nothing and the two zeros are equal. -/
def numericEq (x y : Float8) : Bool :=
  !x.isNaN && !y.isNaN && (x == y || (x.isZero && y.isZero))

/-! ## Significand and exponent -/

/-- `n / 2 ^ shift` rounded to the nearest number, halves to the even one. -/
def roundShift (n shift : Nat) : Nat :=
  let q := n >>> shift
  let r := n % (1 <<< shift)
  if 1 <<< shift < 2 * r then q + 1
  else if 2 * r = 1 <<< shift then q + q % 2
  else q

/-- The magnitude bits of the double nearest to `m * 2 ^ e`, halves to even;
what is too large becomes infinity. -/
def scaledBits (m : Nat) (e : Int) : Nat :=
  if m = 0 then 0 else
  let top : Int := m.log2 + e
  if 1024 ≤ top then infinityBits else
  let unit : Int := max (top - 52) (-1074)
  let q := if unit ≤ e then m <<< (e - unit).toNat else roundShift m (unit - e).toNat
  let bits := if top < -1022 then q else (top + 1022).toNat <<< 52 + q
  min bits infinityBits

def ofScaled (negative : Bool) (m : Nat) (e : Int) : Float8 :=
  ofMagnitude negative (scaledBits m e)

/-- The double nearest to an integer, halves to even. -/
def ofInt (n : Int) : Float8 := ofScaled (n < 0) n.natAbs 0

/-- The double nearest to a natural number, halves to even. -/
def ofNat (n : Nat) : Float8 := ofScaled false n 0

/-- The value of a finite magnitude as `significand * 2 ^ exponent`. -/
def scaled (x : Float8) : Nat × Int :=
  let e : Nat := x.magnitude >>> 52
  let f := x.magnitude % (1 <<< 52)
  if e = 0 then (f, -1074) else (1 <<< 52 + f, Int.ofNat e - 1075)

/-! ## Arithmetic -/

/-- The result of an operation whose operands or result are NaN: the first NaN
operand made quiet, and `invalid` where the operation itself has no result. -/
def settle (x y : Float8) (value : Float) : Float8 :=
  if x.isNaN then x.quiet
  else if y.isNaN then y.quiet
  else if value.isNaN then invalid
  else ⟨value.toBits⟩

def toFloat (x : Float8) : Float := Float.ofBits x.bits

def add (x y : Float8) : Float8 := settle x y (x.toFloat + y.toFloat)

def sub (x y : Float8) : Float8 := settle x y (x.toFloat - y.toFloat)

def mul (x y : Float8) : Float8 := settle x y (x.toFloat * y.toFloat)

def div (x y : Float8) : Float8 := settle x y (x.toFloat / y.toFloat)

def neg (x : Float8) : Float8 := ⟨x.bits ^^^ 0x8000000000000000⟩

/-- The remainder of the division truncated toward zero.  It is exact and takes
the sign of the dividend. -/
def rem (x y : Float8) : Float8 :=
  if x.isNaN then x.quiet
  else if y.isNaN then y.quiet
  else if x.isInfinite || y.isZero then invalid
  else if y.isInfinite then x
  else
    let (mx, ex) := x.scaled
    let (my, ey) := y.scaled
    let e := min ex ey
    let r := (mx <<< (ex - e).toNat) % (my <<< (ey - e).toNat)
    ofScaled x.isNegative r e

end Float8
end BlockQuery
