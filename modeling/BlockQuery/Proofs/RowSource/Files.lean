import BlockQuery.Proofs.RowFile.Records
import BlockQuery.Proofs.RowSource.Yield
import BlockQuery.RowSource.IndexScan
import BlockQuery.RowSource.Scan

/-!
# What scans of files yield

A sequential scan yields the rows of its files as far as it delivers them, and
an index scan the rows at the offsets that were found.  Of the disk only the
files that can be opened matter.
-/

namespace BlockQuery

/-- A reader of the file that a path names, if there is one. -/
def Disk.reader? (disk : Disk) (path : String) : Option RowReader :=
  (RowReader.open? disk path).toOption

/-- The rows of the file that a path names, if they can be read. -/
def Disk.rows? (disk : Disk) (path : String) : Option (List Row) :=
  (disk.reader? path).bind fun r => (r.readAll []).1.toOption

/-- Rows that were read before stand in front of the others. -/
theorem RowReader.readAll_fst (r : RowReader) (done : List Row) :
    (r.readAll done).1.toOption = (r.readAll []).1.toOption.map (done.reverse ++ ·) := by
  induction r using next_induction generalizing done with
  | error r e s hnext =>
    rw [readAll_of_error hnext, readAll_of_error hnext]
    rfl
  | finished r s hnext =>
    rw [readAll_of_end hnext, readAll_of_end hnext]
    simp [Except.toOption]
  | row r row s hnext ih =>
    rw [readAll_of_row hnext, readAll_of_row hnext, ih (row :: done), ih [row]]
    simp [Function.comp_def]

namespace SeqScan

/-- What a scan delivers of rows that were read, unless it refuses one. -/
def delivered (scan : SeqScan) : List Row → Option (List Row)
  | [] => some []
  | row :: rows =>
    match scan.deliver row with
    | .error _ => none
    | .ok none => delivered scan rows
    | .ok (some passed) => (delivered scan rows).map (passed :: ·)

end SeqScan

namespace RowSource

section Sequential

variable (disk : Disk) (scan : SeqScan)

open ScanState

/-- Behind the last file there is no row. -/
theorem pull_nil (n : ℕ) : pull disk ⟨[], none, n⟩ = (.ok none, ⟨[], none, n⟩) := by rw [pull]

/-- Between two files the next one is opened. -/
theorem pull_cons (fragment : Fragment) (pending : List Fragment) (n : ℕ) :
    pull disk ⟨fragment :: pending, none, n⟩ = match RowReader.open? disk fragment.path with
      | .error e => (.error (.storage e), ⟨fragment :: pending, none, n⟩)
      | .ok reader => pull disk ⟨pending, some reader, n⟩ :=
  (pull.eq_def ..).trans rfl

/-- In a file its reader is asked. -/
theorem pull_some (pending : List Fragment) (reader : RowReader) (n : ℕ) :
    pull disk ⟨pending, some reader, n⟩ = match reader.next with
      | (.error e, r) => (.error (.storage e), ⟨pending, some r, n⟩)
      | (.ok none, _) => pull disk ⟨pending, none, n⟩
      | (.ok (some row), r) => (.ok (some row), ⟨pending, some r, n + 1⟩) :=
  (pull.eq_def ..).trans rfl

theorem next_eq (s : ScanState) :
    s.next scan disk = match s.pull disk with
      | (.error e, t) => (.error e, t)
      | (.ok none, t) => (.ok none, t)
      | (.ok (some row), t) =>
        match scan.deliver row with
        | .error e => (.error e, t)
        | .ok (some passed) => (.ok (some passed), t)
        | .ok none => t.next scan disk := by
  rw [ScanState.next]
  rcases s.pull disk with ⟨e | _ | row, t⟩ <;> rfl

theorem rest?_seqScan_congr {s t : ScanState} (h : s.pull disk = t.pull disk) :
    (seqScan disk scan).rest? s = (seqScan disk scan).rest? t := by
  have hnext : s.next scan disk = t.next scan disk := by
    rw [next_eq, next_eq disk scan t, h]
  exact (seqScan disk scan).rest?_congr hnext

theorem rest?_seqScan_of_error {s t : ScanState} {e : ExecError}
    (h : s.pull disk = (.error e, t)) : (seqScan disk scan).rest? s = none := by
  have hnext := next_eq disk scan s
  rw [h] at hnext
  exact (seqScan disk scan).rest?_of_error hnext

theorem rest?_seqScan_of_row {s t : ScanState} {row : Row}
    (h : s.pull disk = (.ok (some row), t)) :
    (seqScan disk scan).rest? s = match scan.deliver row with
      | .error _ => none
      | .ok none => (seqScan disk scan).rest? t
      | .ok (some passed) => ((seqScan disk scan).rest? t).map (passed :: ·) := by
  have hnext := next_eq disk scan s
  rw [h] at hnext
  dsimp only at hnext
  rcases hdeliver : scan.deliver row with e | _ | passed
  · rw [hdeliver] at hnext
    exact (seqScan disk scan).rest?_of_error hnext
  · rw [hdeliver] at hnext
    exact (seqScan disk scan).rest?_congr hnext
  · rw [hdeliver] at hnext
    exact (seqScan disk scan).rest?_of_some hnext

/-- In a file the rows of the reader come first. -/
theorem rest?_seqScan_reader (pending : List Fragment) (more : Option (List Row))
    (hmore : ∀ n, (seqScan disk scan).rest? ⟨pending, none, n⟩ = more.bind scan.delivered)
    (reader : RowReader) (n : ℕ) :
    (seqScan disk scan).rest? ⟨pending, some reader, n⟩ =
      ((reader.readAll []).1.toOption).bind fun rows =>
        more.bind fun others => scan.delivered (rows ++ others) := by
  induction reader using RowReader.next_induction generalizing n with
  | error reader e r hnext =>
    have hpull : ScanState.pull disk ⟨pending, some reader, n⟩ =
        (.error (.storage e), ⟨pending, some r, n⟩) := by
      rw [pull_some, hnext]
    rw [rest?_seqScan_of_error disk scan hpull, RowReader.readAll_of_error hnext]
    rfl
  | finished reader r hnext =>
    have hpull : ScanState.pull disk ⟨pending, some reader, n⟩ =
        ScanState.pull disk ⟨pending, none, n⟩ := by
      rw [pull_some, hnext]
    rw [rest?_seqScan_congr disk scan hpull, RowReader.readAll_of_end hnext, hmore]
    rfl
  | row reader row r hnext ih =>
    have hpull : ScanState.pull disk ⟨pending, some reader, n⟩ =
        (.ok (some row), ⟨pending, some r, n + 1⟩) := by
      rw [pull_some, hnext]
    rw [rest?_seqScan_of_row disk scan hpull, ih (n + 1), RowReader.readAll_of_row hnext,
      RowReader.readAll_fst r [row]]
    rcases hdeliver : scan.deliver row with e | _ | passed <;>
      cases (r.readAll []).1.toOption <;> cases more <;> simp [SeqScan.delivered, hdeliver]

/-- The rows of some files, one file after the other. -/
def filesRows? (fragments : List Fragment) : Option (List Row) :=
  match fragments with
  | [] => some []
  | fragment :: rest =>
    (disk.rows? fragment.path).bind fun rows => (filesRows? rest).map (rows ++ ·)

theorem rest?_seqScan (pending : List Fragment) (n : ℕ) :
    (seqScan disk scan).rest? ⟨pending, none, n⟩ =
      (filesRows? disk pending).bind scan.delivered := by
  induction pending generalizing n with
  | nil =>
    have hnext : ScanState.next scan disk ⟨[], none, n⟩ = (.ok none, ⟨[], none, n⟩) := by
      rw [next_eq, pull_nil]
    exact (seqScan disk scan).rest?_of_none hnext
  | cons fragment rest ih =>
    rw [filesRows?, Disk.rows?, Disk.reader?]
    cases hopen : RowReader.open? disk fragment.path with
    | error e =>
      have hpull : ScanState.pull disk ⟨fragment :: rest, none, n⟩ =
          (.error (.storage e), ⟨fragment :: rest, none, n⟩) := by
        rw [pull_cons, hopen]
      rw [rest?_seqScan_of_error disk scan hpull]
      rfl
    | ok reader =>
      have hpull : ScanState.pull disk ⟨fragment :: rest, none, n⟩ =
          ScanState.pull disk ⟨rest, some reader, n⟩ := by
        rw [pull_cons, hopen]
      rw [rest?_seqScan_congr disk scan hpull, rest?_seqScan_reader disk scan rest _ ih]
      simp only [Except.toOption, Option.bind_some]
      cases (reader.readAll []).1 <;> cases filesRows? disk rest <;> rfl

theorem yield?_seqScan :
    (seqScan disk scan).yield? = (filesRows? disk scan.fragments).bind scan.delivered :=
  rest?_seqScan disk scan scan.fragments 0

end Sequential

section ByIndex

/-- The rows at some offsets of a file, if there are such. -/
def rowsAt? (reader : RowReader) : List ℕ → Option (List Row)
  | [] => some []
  | offset :: offsets =>
    match reader.readAt offset with
    | (.error _, _) => none
    | (.ok row, reader) => (rowsAt? reader offsets).map (row :: ·)

variable (disk : Disk) (scan : IndexScan)

/-- Induct on the offsets whose rows were not read. -/
theorem rest?_indexScan (offsets : List ℕ) (position : ℕ) (reader : RowReader) (tally : Tally) :
    (indexScan disk scan).rest? ⟨offsets, position, some reader, tally⟩ =
      rowsAt? reader (offsets.drop position) := by
  induction hn : offsets.length - position generalizing position reader tally with
  | zero =>
    have hend : offsets[position]? = none := List.getElem?_eq_none (by omega)
    have hnext : IndexScanState.next ⟨offsets, position, some reader, tally⟩ =
        (.ok none, ⟨offsets, position, some reader, tally⟩) := by
      rw [IndexScanState.next]
      simp only [hend]
    rw [List.drop_eq_nil_of_le (by omega)]
    exact (indexScan disk scan).rest?_of_none hnext
  | succ n ih =>
    have hlt : position < offsets.length := by omega
    rw [List.drop_eq_getElem_cons hlt, rowsAt?]
    rcases hread : reader.readAt offsets[position] with ⟨e | row, r⟩
    · have hnext : IndexScanState.next ⟨offsets, position, some reader, tally⟩ =
          (.error (.storage e), ⟨offsets, position, some r, tally⟩) := by
        rw [IndexScanState.next]
        simp only [List.getElem?_eq_getElem hlt, hread]
      exact (indexScan disk scan).rest?_of_error hnext
    · have hnext : IndexScanState.next ⟨offsets, position, some reader, tally⟩ =
          (.ok (some row), ⟨offsets, position + 1, some r,
            { tally with scanned := tally.scanned + 1 }⟩) := by
        rw [IndexScanState.next]
        simp only [List.getElem?_eq_getElem hlt, hread]
      have hrest := ih (position + 1) r { tally with scanned := tally.scanned + 1 } (by omega)
      dsimp only
      rw [← hrest]
      exact (indexScan disk scan).rest?_of_some hnext

theorem yield?_indexScan :
    (indexScan disk scan).yield? = scan.find.toOption.bind fun offsets =>
      (disk.reader? scan.data.path).bind fun reader => rowsAt? reader offsets := by
  have hinit : (indexScan disk scan).init false (indexScan disk scan).start =
      IndexScanState.init scan disk ⟨[], 0, none, .none⟩ := rfl
  rw [yield?, Disk.reader?, hinit, IndexScanState.init]
  cases scan.find with
  | error e => rfl
  | ok offsets =>
    cases RowReader.open? disk scan.data.path with
    | error e => rfl
    | ok reader => exact rest?_indexScan disk scan offsets 0 reader _

end ByIndex

end RowSource
end BlockQuery
