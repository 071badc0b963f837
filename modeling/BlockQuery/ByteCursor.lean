import BlockQuery.Bytes

/-!
# Byte cursors

A cursor walks over a byte string.  A read takes a value at the cursor's
position and moves past it; a read that finds too few bytes leaves the
position where it is.  `rest` holds what lies from the position on, so that a
read costs no more than the bytes it takes.
-/

namespace BlockQuery

inductive DecodeError where
  | truncated (needed at_ available : Nat)
  | invalidTag (tag : UInt8)
  | invalidText (at_ : Nat)
  /-- A position beyond the end was used to cut the bytes. -/
  | outOfBounds (at_ size : Nat)
deriving DecidableEq, Repr

def DecodeError.message : DecodeError → String
  | truncated needed at_ available =>
    s!"Truncated input: needed {needed} bytes at position {at_}, {available} available"
  | invalidTag tag => s!"Invalid type tag {tag.toNat}"
  | invalidText at_ => s!"Invalid UTF-8 in text value at position {at_}"
  | outOfBounds at_ size =>
    s!"range start index {at_} out of range for slice of length {size}"

structure ByteCursor where
  size : Nat
  position : Nat
  rest : Bytes
deriving Repr

/-- A step that reads at a cursor and moves it, also when it fails. -/
abbrev Read := ExceptT DecodeError (StateM ByteCursor)

namespace ByteCursor

/-- A cursor over `data` that starts at `position`, which may lie beyond the end. -/
def startAt (data : Bytes) (position : Nat) : ByteCursor :=
  ⟨data.length, position, data.drop position⟩

def ofBytes (data : Bytes) : ByteCursor := startAt data 0

def remaining (c : ByteCursor) : Nat := c.size - c.position

end ByteCursor

namespace Read

/-- Exactly `n` bytes. -/
def bytes (n : Nat) : Read Bytes := fun c =>
  if c.remaining < n then (.error (.truncated n c.position c.remaining), c)
  else if c.size < c.position then (.error (.outOfBounds c.position c.size), c)
  else (.ok (c.rest.take n), { c with position := c.position + n, rest := c.rest.drop n })

/-- A number of `width` bytes, least significant first. -/
def nat (width : Nat) : Read Nat := do
  let bs ← bytes width
  return bs.toNat

def position : Read Nat := fun c => (.ok c.position, c)

def fail {α : Type} (e : DecodeError) : Read α := fun c => (.error e, c)

/-- A text after its four-byte length. -/
def text : Read String := do
  let length ← nat 4
  let start ← position
  let bs ← bytes length
  match Bytes.toText? bs with
  | some s => return s
  | none => fail (.invalidText start)

end Read
end BlockQuery
