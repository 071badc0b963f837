/-!
# Text patterns

In a pattern `%` stands for any run of characters, the empty one included, and
`_` for exactly one character; every other character stands for itself.

A pattern is matched from its start: after each part it is known which tails of
the text may be left for the parts that follow, the longest one first.  After a
run these are all tails of the longest one that was left before it.

A pattern is as large as the automaton that reads texts by it, forwards or
backwards, byte by byte.  There is a limit to that size.
-/

namespace BlockQuery.Like

inductive Part where
  | run
  | one
  | char (c : Char)
deriving DecidableEq, Repr

def Part.ofChar (c : Char) : Part :=
  if c = '%' then .run else if c = '_' then .one else .char c

def parts (pattern : String) : List Part := pattern.toList.map Part.ofChar

/-! ## Matching -/

/-- The tails of a list, the longest first. -/
def tails {α : Type} : List α → List (List α)
  | [] => [[]]
  | a :: r => (a :: r) :: tails r

theorem mem_tails {α : Type} {l r : List α} : r ∈ tails l ↔ r <:+ l := by
  induction l with
  | nil => simp [tails]
  | cons a t ih => simp [tails, ih, List.suffix_cons_iff]

/-- What is left of a text after a character that passes a test. -/
def afterChar? (test : Char → Bool) : List Char → Option (List Char)
  | c :: r => if test c then some r else none
  | [] => none

/-- The tails that may be left after a part, given those that may be left before
it. -/
def Part.advance (left : List (List Char)) : Part → List (List Char)
  | run =>
    match left with
    | longest :: _ => tails longest
    | [] => []
  | one => left.filterMap (afterChar? fun _ => true)
  | char c => left.filterMap (afterChar? (· == c))

/-- Whether a text fits a pattern. -/
def accepts (ps : List Part) (text : String) : Bool :=
  (ps.foldl Part.advance [text.toList]).any List.isEmpty

/-! ## Size -/

/-- The bytes that an automaton takes for itself, for each byte of a character
that stands for itself, for any one character, and for a run. -/
structure Footprint where
  base : Nat
  perByte : Nat
  one : Nat
  run : Nat
deriving DecidableEq, Repr

namespace Footprint

/-- An automaton that reads texts from their start. -/
def forwards : Footprint := ⟨192, 32, 416, 456⟩

/-- An automaton that reads texts from their end. -/
def backwards : Footprint := ⟨128, 32, 964, 1004⟩

def ofPart (f : Footprint) : Part → Nat
  | .run => f.run
  | .one => f.one
  | .char c => f.perByte * c.utf8Size

def ofParts (f : Footprint) (ps : List Part) : Nat :=
  ps.foldl (fun size p => size + f.ofPart p) f.base

end Footprint

/-- The most bytes that an automaton of a pattern may take. -/
def maxSize : Nat := 10485760

def fits (ps : List Part) : Bool :=
  Footprint.forwards.ofParts ps ≤ maxSize && Footprint.backwards.ofParts ps ≤ maxSize

end BlockQuery.Like
