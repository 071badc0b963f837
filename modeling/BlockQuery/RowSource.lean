import BlockQuery.Execution.Error

/-!
# Sources of rows

A row source yields rows one at a time.  It is started by `init`, asked for
rows by `next`, taken back to its first row by `reset` and given up by `close`;
what it does between these calls is kept in its state.  An execution can be
cancelled at any time, which `init` and `next` learn by their first argument.

Every source carries a bound on the rows that it may still yield; so it can be
drained.
-/

namespace BlockQuery

/-- The work that a source has done. -/
structure Tally where
  /-- Rows read from files. -/
  scanned : Nat
  /-- Look-ups in indexes. -/
  lookups : Nat
deriving DecidableEq, Repr

namespace Tally

def none : Tally := ⟨0, 0⟩

def add (a b : Tally) : Tally := ⟨a.scanned + b.scanned, a.lookups + b.lookups⟩

end Tally

structure RowSource where
  State : Type
  start : State
  init : Bool → State → Except ExecError Unit × State
  next : Bool → State → Except ExecError (Option Row) × State
  reset : State → State
  close : State → State
  tally : State → Tally
  /-- A bound on the rows that may still come. -/
  left : State → Nat
  left_lt : ∀ {cancelled s s' row}, next cancelled s = (.ok (some row), s') → left s' < left s

namespace RowSource

/-- Takes all rows that are left one by one into a value, until an error. -/
def fold {α : Type} (src : RowSource) (cancelled : Bool) (f : Row → α → Except ExecError α)
    (s : src.State) (a : α) : α × Except ExecError Unit × src.State :=
  match _h : src.next cancelled s with
  | (.error e, s') => (a, .error e, s')
  | (.ok none, s') => (a, .ok (), s')
  | (.ok (some row), s') =>
    match f row a with
    | .error e => (a, .error e, s')
    | .ok b => src.fold cancelled f s' b
termination_by src.left s
decreasing_by exact src.left_lt _h

/-- Takes rows as `fold` does, in an execution that is cancelled after a number
of calls, if at all. -/
def foldUntil {α : Type} (src : RowSource) (cancelAt : Option Nat)
    (f : Row → α → Except ExecError α) (s : src.State) (a : α) :
    α × Except ExecError Unit × src.State :=
  match _h : src.next (cancelAt == some 0) s with
  | (.error e, s') => (a, .error e, s')
  | (.ok none, s') => (a, .ok (), s')
  | (.ok (some row), s') =>
    match f row a with
    | .error e => (a, .error e, s')
    | .ok b => src.foldUntil (cancelAt.map Nat.pred) f s' b
termination_by src.left s
decreasing_by exact src.left_lt _h

/-- What grows by at most one with every row has grown by at most the number of
rows that were left. -/
theorem size_fold_le {α : Type} (src : RowSource) (cancelled : Bool)
    (f : Row → α → Except ExecError α) (size : α → Nat)
    (hf : ∀ row a b, f row a = .ok b → size b ≤ size a + 1) (s : src.State) (a : α) :
    size (src.fold cancelled f s a).1 ≤ size a + src.left s := by
  fun_induction RowSource.fold src cancelled f s a with
  | case1 => simp
  | case2 => simp
  | case3 => simp
  | case4 s a row s' hnext b hfb ih =>
    have h₁ := src.left_lt hnext
    have h₂ := hf _ _ _ hfb
    omega

/-- The rows that are left in reverse after some others, what ended them, and
the state then. -/
def gather (src : RowSource) (cancelled : Bool) (s : src.State) (rows : List Row) :
    List Row × Except ExecError Unit × src.State :=
  src.fold cancelled (fun row rows => .ok (row :: rows)) s rows

theorem length_gather_le (src : RowSource) (cancelled : Bool) (s : src.State) (rows : List Row) :
    (src.gather cancelled s rows).1.length ≤ rows.length + src.left s :=
  src.size_fold_le cancelled _ List.length (by simp) s rows

/-- The rows that are left, unless there is an error. -/
def drain (src : RowSource) (cancelled : Bool) (s : src.State) :
    Except ExecError (List Row) × src.State :=
  match src.gather cancelled s [] with
  | (_, .error e, s) => (.error e, s)
  | (rows, .ok _, s) => (.ok rows.reverse, s)

/-- All rows from a fresh start; the source is closed behind the last one. -/
def rows (src : RowSource) (cancelled : Bool) : Except ExecError (List Row) × src.State :=
  match src.init cancelled src.start with
  | (.error e, s) => (.error e, s)
  | (.ok _, s) =>
    match src.drain cancelled s with
    | (.error e, s) => (.error e, s)
    | (.ok rows, s) => (.ok rows, src.close s)

/-- Yields given rows.  The state is what has not been yielded yet. -/
def values (rows : List Row) : RowSource where
  State := List Row
  start := rows
  init _ _ := (.ok (), rows)
  next _ s := (.ok s.head?, s.tail)
  reset _ := rows
  close s := s
  tally _ := .none
  left s := s.length
  left_lt := by
    intro _ s s' row h
    cases s with
    | nil => simp at h
    | cons r rs =>
      simp only [Prod.mk.injEq, List.tail_cons] at h
      simp [← h.2]

end RowSource
end BlockQuery
