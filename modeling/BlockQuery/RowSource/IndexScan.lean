import BlockQuery.Index.Scan
import BlockQuery.RowFile.Reader
import BlockQuery.RowSource

/-!
# Scans by an index

An index scan looks up the offsets of its rows when it is started and then
reads the rows at these offsets.
-/

namespace BlockQuery

/-- The entries of an index that a scan wants. -/
inductive IndexLookup where
  | eq (key : Row)
  | range (lower upper : Index.Bound)
deriving DecidableEq, Repr

def IndexLookup.isEquality : IndexLookup → Bool
  | eq _ => true
  | range .. => false

structure IndexScan where
  schema : Schema
  data : Fragment
  index : Index.Reader
  lookup : IndexLookup
deriving Repr

/-- The offsets of the rows of an index scan. -/
def IndexScan.find (scan : IndexScan) : Except Index.Error (List Nat) :=
  match scan.lookup with
  | .eq key => (scan.index.scanEqual key).bind Index.Scan.offsets
  | .range lower upper => (scan.index.scan lower upper).bind Index.Scan.offsets

namespace RowSource

structure IndexScanState where
  offsets : List Nat
  /-- The number of offsets whose rows were read. -/
  position : Nat
  rows : Option RowReader
  tally : Tally

namespace IndexScanState

def init (scan : IndexScan) (disk : Disk) (s : IndexScanState) :
    Except ExecError Unit × IndexScanState :=
  match scan.find with
  | .error e => (.error (.index e), s)
  | .ok offsets =>
    let s := { s with
      offsets := offsets
      position := 0
      tally := { s.tally with lookups := s.tally.lookups + 1 } }
    match RowReader.open? disk scan.data.path with
    | .error e => (.error (.storage e), s)
    | .ok reader => (.ok (), { s with rows := some reader })

def next (s : IndexScanState) : Except ExecError (Option Row) × IndexScanState :=
  match s.offsets[s.position]? with
  | none => (.ok none, s)
  | some offset =>
    match s.rows with
    | none => (.error (.invalidPlan .scanBeforeInit), s)
    | some reader =>
      match reader.readAt offset with
      | (.error e, r) => (.error (.storage e), { s with rows := some r })
      | (.ok row, r) =>
        (.ok (some row), { s with
          rows := some r
          position := s.position + 1
          tally := { s.tally with scanned := s.tally.scanned + 1 } })

def left (s : IndexScanState) : Nat := s.offsets.length - s.position

theorem left_lt_of_next {s s' : IndexScanState} {row : Row}
    (h : s.next = (.ok (some row), s')) : s'.left < s.left := by
  unfold next at h
  split at h
  · simp at h
  next offset hoffset =>
    have hlt := (List.getElem?_eq_some_iff.1 hoffset).1
    split at h
    · simp at h
    · split at h
      · simp at h
      · simp only [Prod.mk.injEq] at h
        simp only [← h.2, left]
        omega

end IndexScanState

/-- The rows that an index lists for a look-up. -/
def indexScan (disk : Disk) (scan : IndexScan) : RowSource where
  State := IndexScanState
  start := ⟨[], 0, none, .none⟩
  init _ s := s.init scan disk
  next cancelled s := if cancelled then (.error .cancelled, s) else s.next
  reset s := { s with position := 0 }
  close s := { s with rows := none }
  tally := IndexScanState.tally
  left := IndexScanState.left
  left_lt := by
    intro cancelled s s' row h
    cases cancelled
    · exact IndexScanState.left_lt_of_next h
    · simp at h

end RowSource
end BlockQuery
