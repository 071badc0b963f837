import BlockQuery.Json

/-!
# Numbers in JSON text

A number without fraction and exponent is whole if it fits 64 bits, signed
when negative; `-0` and all others are doubles.  A double is read from the
leading digits that fit a 64-bit word, with the digits after them dropped, and
is then scaled by a power of ten in double arithmetic, so that its last bit may
differ from that of the nearest double.  A number beyond the doubles has no
value.
-/

namespace BlockQuery.Json

def digitValue (c : Char) : Nat := c.toNat - '0'.toNat

/-- The digits at the front and what follows them. -/
def splitDigits (cs : List Char) : List Char × List Char :=
  (cs.takeWhile Char.isDigit, cs.dropWhile Char.isDigit)

/-- The number that leading digits make as long as it fits 64 bits, and the
digits left over. -/
def significand (value : Nat) : List Char → Nat × List Char
  | [] => (value, [])
  | c :: cs =>
    if UInt64.size ≤ value * 10 + digitValue c then (value, c :: cs)
    else significand (value * 10 + digitValue c) cs

/-- Division by `10 ^ 308` until the exponent is within reach of one division
or nothing is left. -/
def scaleDown : Nat → Float8 → Nat → Float8
  | 0, x, _ => x
  | fuel + 1, x, exponent =>
    if exponent ≤ 308 then x.div (.ofNat (Nat.pow 10 exponent))
    else if x.isZero then x
    else scaleDown fuel (x.div (.ofNat (Nat.pow 10 308))) (exponent - 308)

/-- `significand * 10 ^ exponent` in double arithmetic, unless it is too large. -/
def scale? (value : Nat) (exponent : Int) : Option Float8 :=
  let x := Float8.ofNat value
  if exponent < 0 then some (scaleDown (exponent.natAbs / 308 + 1) x exponent.natAbs)
  else if exponent ≤ 308 then
    let y := x.mul (.ofNat (Nat.pow 10 exponent.toNat))
    if y.isInfinite then none else some y
  else if x.isZero then some x
  else none

/-- A double after its sign, where it is not too large. -/
def withSign (negative : Bool) : Option Float8 → Json
  | none => unreadable
  | some x => double (if negative then x.neg else x)

/-- The number after its fraction, at a possible exponent. -/
def exponentPart (negative : Bool) (value : Nat) (exponent : Int) :
    List Char → Option (Json × List Char)
  | c :: cs =>
    if c == 'e' || c == 'E' then
      let (down, cs) := match cs with
        | '+' :: cs => (false, cs)
        | '-' :: cs => (true, cs)
        | cs => (false, cs)
      let (digits, rest) := splitDigits cs
      if digits.isEmpty then none else
      let shift := digits.foldl (fun n d => n * 10 + digitValue d) 0
      let x :=
        if shift ≤ 2147483647 then
          scale? value (if down then exponent - shift else exponent + shift)
        else if value = 0 ∨ down then some .zero
        else none
      some (withSign negative x, rest)
    else some (withSign negative (scale? value exponent), c :: cs)
  | [] => some (withSign negative (scale? value exponent), [])

/-- A whole number if it fits, a double otherwise. -/
def wholeNumber (negative : Bool) (value : Nat) : Json :=
  if !negative then whole value
  else if value = 0 ∨ 9223372036854775808 < value then
    withSign true (some (.ofNat value))
  else whole (-(value : Int))

/-- A number after its sign. -/
def unsignedNumber (negative : Bool) (cs : List Char) : Option (Json × List Char) :=
  let (digits, rest) := splitDigits cs
  if digits.isEmpty then none
  else if digits.head? = some '0' ∧ digits.length ≠ 1 then none
  else
    let (value, dropped) := significand 0 digits
    match rest with
    | '.' :: rest =>
      let (fraction, rest) := splitDigits rest
      if fraction.isEmpty then none else
      let (value, ignored) := significand value fraction
      exponentPart negative value
        ((dropped.length : Int) - ((fraction.length - ignored.length : Nat) : Int)) rest
    | c :: _ =>
      if c == 'e' || c == 'E' then exponentPart negative value dropped.length rest
      else if dropped.isEmpty then some (wholeNumber negative value, rest)
      else exponentPart negative value dropped.length rest
    | [] =>
      if dropped.isEmpty then some (wholeNumber negative value, rest)
      else exponentPart negative value dropped.length rest

/-- A number and what follows it. -/
def number : List Char → Option (Json × List Char)
  | '-' :: cs => unsignedNumber true cs
  | cs => unsignedNumber false cs

end BlockQuery.Json
