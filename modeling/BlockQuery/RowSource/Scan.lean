import BlockQuery.RowFile.Reader
import BlockQuery.RowSource

/-!
# Scans of row files

A scan reads the rows of its files one after another; a file is opened when its
first row is asked for.  Rows have to be as wide as the schema of the scan.
-/

namespace BlockQuery

structure SeqScan where
  schema : Schema
  fragments : List Fragment
  condition : Option BoundExpr
  /-- The positions of the values that are passed on; without them all are. -/
  projection : Option (List Nat)
deriving DecidableEq, Repr

namespace SeqScan

def ofFragments (schema : Schema) (fragments : List Fragment) : SeqScan :=
  ⟨schema, fragments, none, none⟩

def outputSchema (scan : SeqScan) : Schema :=
  match scan.projection with
  | none => scan.schema
  | some positions => positions.filterMap fun i => scan.schema[i]?

/-- The scan with only the rows that a predicate keeps. -/
def withCondition (scan : SeqScan) (predicate : Expr) : Except ExecError SeqScan :=
  match predicate.bind scan.schema with
  | .error e => .error (.ofBind e)
  | .ok bound => .ok { scan with condition := some bound }

/-- The scan with only the given columns. -/
def withTarget (scan : SeqScan) (columns : List String) : Except ExecError SeqScan :=
  match columns.mapM scan.schema.find with
  | .error e => .error (.invalidPlan (.lookup e))
  | .ok positions => .ok { scan with projection := some positions }

/-- What becomes of a row that was read: passed on, dropped, or refused. -/
def deliver (scan : SeqScan) (row : Row) : Except ExecError (Option Row) :=
  if row.length ≠ scan.schema.length then
    .error (.invalidPlan (.rowWidth row.length scan.schema))
  else
    let passed := match scan.projection with
      | none => row
      | some positions => row.select positions
    match scan.condition with
    | none => .ok (some passed)
    | some predicate =>
      match predicate.keeps row with
      | .error e => .error (.eval e)
      | .ok true => .ok (some passed)
      | .ok false => .ok none

end SeqScan

namespace RowSource

structure ScanState where
  /-- The files that were not opened yet. -/
  pending : List Fragment
  reader : Option RowReader
  scanned : Nat

namespace ScanState

/-- The next row of the files. -/
def pull (disk : Disk) (s : ScanState) : Except ExecError (Option Row) × ScanState :=
  match _hr : s.reader with
  | none =>
    match _hp : s.pending with
    | [] => (.ok none, s)
    | fragment :: rest =>
      match RowReader.open? disk fragment.path with
      | .error e => (.error (.storage e), s)
      | .ok reader => pull disk { s with pending := rest, reader := some reader }
  | some reader =>
    match reader.next with
    | (.error e, r) => (.error (.storage e), { s with reader := some r })
    | (.ok none, _) => pull disk { s with reader := none }
    | (.ok (some row), r) =>
      (.ok (some row), { s with reader := some r, scanned := s.scanned + 1 })
termination_by (s.pending.length, s.reader.isSome.toNat)
decreasing_by
  · simp [Prod.lex_def, _hp]
  · simp [Prod.lex_def, _hr]

/-- The bytes of a file that a reader would go through. -/
def sizeOnDisk (disk : Disk) (fragment : Fragment) : Nat :=
  match RowReader.open? disk fragment.path with
  | .error _ => 0
  | .ok reader => reader.left

def left (disk : Disk) (s : ScanState) : Nat :=
  s.pending.foldr (fun fragment n => sizeOnDisk disk fragment + n) 0 +
    match s.reader with
    | none => 0
    | some reader => reader.left

theorem left_lt_of_pull {disk : Disk} {s s' : ScanState} {row : Row}
    (h : s.pull disk = (.ok (some row), s')) : s'.left disk < s.left disk := by
  fun_induction pull disk s with
  | case1 => simp at h
  | case2 => simp at h
  | case3 s hr fragment rest hp reader hopen ih =>
    refine Nat.lt_of_lt_of_le (ih h) ?_
    simp only [left, hp, hr, List.foldr_cons, sizeOnDisk, hopen]
    omega
  | case4 => simp at h
  | case5 s reader hr _ _ ih =>
    refine Nat.lt_of_lt_of_le (ih h) ?_
    simp only [left, hr]
    omega
  | case6 s reader hr r t hnext =>
    have := RowReader.left_lt_of_next hnext
    simp only [Prod.mk.injEq] at h
    simp only [← h.2, left, hr]
    omega

/-- The next row that the scan passes on. -/
def next (scan : SeqScan) (disk : Disk) (s : ScanState) :
    Except ExecError (Option Row) × ScanState :=
  match _h : s.pull disk with
  | (.error e, t) => (.error e, t)
  | (.ok none, t) => (.ok none, t)
  | (.ok (some row), t) =>
    match scan.deliver row with
    | .error e => (.error e, t)
    | .ok (some passed) => (.ok (some passed), t)
    | .ok none => next scan disk t
termination_by s.left disk
decreasing_by exact left_lt_of_pull _h

theorem left_lt_of_next {scan : SeqScan} {disk : Disk} {s s' : ScanState} {row : Row}
    (h : s.next scan disk = (.ok (some row), s')) : s'.left disk < s.left disk := by
  fun_induction next scan disk s with
  | case1 => simp at h
  | case2 => simp at h
  | case3 => simp at h
  | case4 s r t hpull _ =>
    simp only [Prod.mk.injEq] at h
    exact h.2 ▸ left_lt_of_pull hpull
  | case5 s r t hpull _ ih => exact Nat.lt_trans (ih h) (left_lt_of_pull hpull)

end ScanState

/-- The rows of files on a disk. -/
def seqScan (disk : Disk) (scan : SeqScan) : RowSource where
  State := ScanState
  start := ⟨scan.fragments, none, 0⟩
  init _ s := (.ok (), { s with pending := scan.fragments, reader := none })
  next cancelled s := if cancelled then (.error .cancelled, s) else s.next scan disk
  reset s := { s with pending := scan.fragments, reader := none }
  close s := { s with reader := none }
  tally s := ⟨s.scanned, 0⟩
  left := ScanState.left disk
  left_lt := by
    intro cancelled s s' row h
    cases cancelled
    · exact ScanState.left_lt_of_next h
    · simp at h

end RowSource
end BlockQuery
