import BlockQuery.Float8

/-!
# Shortest decimals

The reals that round to a finite double form an interval around it, ends
included exactly when its significand is even.  The shortest decimal of the
double is the multiple of the greatest power of ten that lies in the interval;
of two such multiples the nearer one is taken, and a `Tie` decides the middle.

`positional` and `scientific` lay the digits out as text.
-/

namespace BlockQuery

/-- Which neighbour is taken when two decimals are equally near. -/
inductive Tie where
  | away
  | toEven
deriving DecidableEq

namespace Float8

/-- The number `digits * 10 ^ exponent`. -/
structure Decimal where
  digits : Nat
  exponent : Int
deriving DecidableEq, Repr

/-- Twice the distance in `2 ^ (exponent - 2)` units down to the lower end of
the interval: half as far below a power of two as above it. -/
def lowerGap (m : Nat) (e : Int) : Nat :=
  if m = 1 <<< 52 ∧ -1074 < e then 1 else 2

/-- The multiple of `10 ^ k` that stands for `m * 2 ^ e`, if one lies in the
interval of the double. -/
def onGrid? (tie : Tie) (m : Nat) (e k : Int) : Option Nat :=
  let binary := (e - 2).toNat
  let scale := (2 - e).toNat
  let unit := Nat.pow 10 k.toNat <<< scale
  let den := Nat.pow 10 (-k).toNat
  let value := (4 * m * den) <<< binary
  let low := ((4 * m - lowerGap m e) * den) <<< binary
  let high := ((4 * m + 2) * den) <<< binary
  let closed := m % 2 == 0
  let down := value / unit
  let up := down + 1
  let downIn := 0 < down ∧ (low < down * unit ∨ (closed ∧ low = down * unit))
  let upIn := up * unit < high ∨ (closed ∧ up * unit = high)
  let below := value - down * unit
  if downIn ∧ upIn then
    if 2 * below < unit then some down
    else if unit < 2 * below then some up
    else match tie with
      | .away => some up
      | .toEven => if down % 2 = 0 then some down else some up
  else if downIn then some down
  else if upIn then some up
  else none

/-- The first hit on the grids `10 ^ k`, `10 ^ (k - 1)`, and so on. -/
def firstOnGrid (tie : Tie) (m : Nat) (e : Int) : Nat → Int → Decimal
  | 0, k => ⟨0, k⟩
  | fuel + 1, k =>
    match onGrid? tie m e k with
    | some digits => ⟨digits, k⟩
    | none => firstOnGrid tie m e fuel (k - 1)

/-- The shortest decimal of the positive double `m * 2 ^ e`. -/
def shortest (tie : Tie) (m : Nat) (e : Int) : Decimal :=
  let top : Int := m.log2 + e
  firstOnGrid tie m e 800 (top * 30103 / 100000 + 2)

/-- The shortest decimal of the magnitude of a finite double. -/
def shortestDecimal (tie : Tie) (x : Float8) : Decimal :=
  if x.isZero then ⟨0, 0⟩ else shortest tie x.scaled.1 x.scaled.2

/-- The digits with a point where the exponent puts it, and without a point
for a whole number. -/
def Decimal.positional (d : Decimal) : String :=
  let ds := Nat.toDigits 10 d.digits
  if 0 ≤ d.exponent then
    String.ofList (ds ++ List.replicate d.exponent.toNat '0')
  else
    let places := (-d.exponent).toNat
    if ds.length ≤ places then
      String.ofList ('0' :: '.' :: (List.replicate (places - ds.length) '0' ++ ds))
    else
      let whole := ds.length - places
      String.ofList (ds.take whole ++ '.' :: ds.drop whole)

/-- The exponent of the leading digit. -/
def Decimal.leading (d : Decimal) : Int :=
  (Nat.toDigits 10 d.digits).length + d.exponent - 1

/-- One digit before the point and a signed exponent. -/
def Decimal.scientific (d : Decimal) : String :=
  let ds := Nat.toDigits 10 d.digits
  let lead := d.leading
  let fraction := if ds.length ≤ 1 then [] else '.' :: ds.drop 1
  let sign := if lead < 0 then '-' else '+'
  String.ofList (ds.take 1 ++ fraction ++ 'e' :: sign :: Nat.toDigits 10 lead.natAbs)

/-- The text of a double in query output: the shortest digits, never an
exponent, no point for whole numbers, ties away from zero. -/
def display (x : Float8) : String :=
  if x.isNaN then "NaN" else
  let sign := if x.isNegative then "-" else ""
  if x.isInfinite then sign ++ "inf"
  else sign ++ (x.shortestDecimal .away).positional

/-- The text of a double in a JSON document: the shortest digits, positional
with at least one decimal place when the leading exponent is between -5 and 15,
with an exponent otherwise; what is not finite is `null`. -/
def jsonText (x : Float8) : String :=
  if !x.isFinite then "null" else
  let sign := if x.isNegative then "-" else ""
  if x.isZero then sign ++ "0.0" else
  let d := x.shortestDecimal .toEven
  if -5 ≤ d.leading ∧ d.leading ≤ 15 then
    sign ++ d.positional ++ (if 0 ≤ d.exponent then ".0" else "")
  else sign ++ d.scientific

end Float8
end BlockQuery
