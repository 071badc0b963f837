import BlockQuery.Index.Reader

/-!
# Range scans

A scan goes through the entries from its lower bound on and stops behind its
upper bound.  The block that it is in stays decoded.
-/

namespace BlockQuery.Index

inductive Bound where
  | unbounded
  | included (key : Row)
  | excluded (key : Row)
deriving DecidableEq, Repr

namespace Bound

def key? : Bound → Option Row
  | unbounded => none
  | included key => some key
  | excluded key => some key

/-- Whether no key can satisfy both bounds. -/
def inverted (order : RowOrder) : Bound → Bound → Bool
  | included l, included h => order.compare l h == .gt
  | included l, excluded h => order.compare l h != .lt
  | excluded l, included h => order.compare l h != .lt
  | excluded l, excluded h => order.compare l h != .lt
  | _, _ => false

/-- Whether a key lies within an upper bound. -/
def admitsBelow (order : RowOrder) (key : Row) : Bound → Bool
  | unbounded => true
  | included h => order.compare key h != .gt
  | excluded h => order.compare key h == .lt

end Bound

structure Scan where
  reader : Reader
  /-- The ordinal of the next entry. -/
  next : Nat
  upper : Bound
  /-- The last block read and its entries. -/
  block : Option (Nat × List BottomEntry)
  done : Bool
deriving Repr

namespace Reader

def checkBound (r : Reader) (b : Bound) : Except Error Unit :=
  match b.key? with
  | none => .ok ()
  | some key => r.checkKey key

/-- The ordinal of the first entry within a lower bound, if there is one. -/
def startOf (r : Reader) : Bound → Except Error (Option Nat)
  | .unbounded => .ok (some 0)
  | .included key => r.seek key false
  | .excluded key => r.seek key true

/-- The entries within two bounds. -/
def scan (r : Reader) (lower upper : Bound) : Except Error Scan := do
  r.checkBound lower
  r.checkBound upper
  let start ← r.startOf lower
  let next := if lower.inverted r.order upper then r.entryCount else start.getD r.entryCount
  return ⟨r, next, upper, none, false⟩

def scanEqual (r : Reader) (key : Row) : Except Error Scan := r.scan (.included key) (.included key)

def scanRange (r : Reader) (low high : Row) : Except Error Scan :=
  r.scan (.included low) (.included high)

end Reader

namespace Scan

/-- The entries of a block, decoded now unless they were decoded last. -/
def entriesOf (s : Scan) (block : Nat) : Except Error (List BottomEntry) :=
  match s.block with
  | some (b, entries) => if b = block then .ok entries else s.reader.readBlock block
  | none => s.reader.readBlock block

/-- The offset of the next entry, an error, or nothing at the end. -/
def step (s : Scan) : Option (Except Error Nat) × Scan :=
  if s.done || decide (s.reader.entryCount ≤ s.next) then (none, s)
  else
    let block := s.next / s.reader.header.loadFactor
    match s.entriesOf block with
    | .error e => (some (.error e), { s with done := true })
    | .ok entries =>
      match entries[s.next % s.reader.header.loadFactor]? with
      | none =>
        (some (.error (.corruption none (.entryMissing s.next))),
          { s with block := some (block, entries), done := true })
      | some e =>
        if !s.upper.admitsBelow s.reader.order e.key then
          (none, { s with block := some (block, entries), done := true })
        else (some (.ok e.offset), { s with block := some (block, entries), next := s.next + 1 })

/-- A measure of the steps that may still give something. -/
def left (s : Scan) : Nat := if s.done then 0 else s.reader.entryCount - s.next

theorem left_lt_of_step {s s' : Scan} {x : Except Error Nat} (h : s.step = (some x, s')) :
    s'.left < s.left := by
  unfold step at h
  split at h
  · simp at h
  next hrun =>
    simp only [Bool.or_eq_true, decide_eq_true_eq, not_or, Bool.not_eq_true] at hrun
    simp only at h
    split at h
    · simp only [Prod.mk.injEq] at h
      obtain ⟨-, rfl⟩ := h
      simp only [left, hrun.1, if_true]
      simp
      omega
    · split at h
      · simp only [Prod.mk.injEq] at h
        obtain ⟨-, rfl⟩ := h
        simp only [left, hrun.1, if_true]
        simp
        omega
      · split at h
        · simp at h
        · simp only [Prod.mk.injEq] at h
          obtain ⟨-, rfl⟩ := h
          simp only [left, hrun.1]
          simp
          omega

/-- All that is left of a scan, after what already came in reverse. -/
def drain (s : Scan) (done : List (Except Error Nat)) : List (Except Error Nat) × Scan :=
  match _h : s.step with
  | (none, s') => (done.reverse, s')
  | (some x, s') => drain s' (x :: done)
termination_by s.left
decreasing_by exact left_lt_of_step _h

/-- The offsets of all entries left, or the first error among them. -/
def offsets (s : Scan) : Except Error (List Nat) := (s.drain []).1.mapM id

end Scan
end BlockQuery.Index
