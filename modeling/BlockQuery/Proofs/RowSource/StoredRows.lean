import BlockQuery.Proofs.RowFile.Stored
import BlockQuery.Proofs.RowSource.Reachable
import BlockQuery.RowSource.IndexScan
import BlockQuery.RowSource.Scan

/-!
# Scans yield stored rows

Whatever calls came before, a sequential scan yields rows that its files store,
and an index scan yields the rows at the offsets that its look-up finds.
-/

namespace BlockQuery.RowSource

/-! ## Sequential scans -/

section Sequential

variable {disk : Disk} {scan : SeqScan} {P : Row → Prop}

/-- The files of a scan wait to be opened, or are read by the reader at hand. -/
structure ScanState.Within (disk : Disk) (scan : SeqScan) (s : ScanState) : Prop where
  pending : ∀ f ∈ s.pending, f ∈ scan.fragments
  reader : ∀ r, s.reader = some r → ∃ f ∈ scan.fragments, ∃ first n,
    RowReader.open? disk f.path = .ok first ∧ (first.nexts n).2 = r

theorem ScanState.Within.answers_pull {s : ScanState} (hs : s.Within disk scan) :
    Answers (Within disk scan) (fun row => ∃ f ∈ scan.fragments, disk.Stores f.path row)
      (s.pull disk) := by
  fun_induction ScanState.pull disk s with
  | case1 => exact Answers.of_none hs
  | case2 => exact Answers.of_error hs _
  | case3 s hr fragment rest hp first hopen ih =>
    obtain ⟨hfragment, hrest⟩ := List.forall_mem_cons.mp (hp ▸ hs.pending)
    refine ih ⟨hrest, fun r hreader => ?_⟩
    cases hreader
    exact ⟨fragment, hfragment, first, 0, hopen, rfl⟩
  | case4 s reader hr e r hnext =>
    obtain ⟨f, hf, first, n, hopen, hn⟩ := hs.reader reader hr
    refine Answers.of_error ⟨hs.pending, fun t ht => ?_⟩ _
    cases ht
    refine ⟨f, hf, first, n + 1, hopen, ?_⟩
    rw [RowReader.nexts_succ, hn, hnext]
  | case5 s reader hr t hnext ih => exact ih ⟨hs.pending, fun r hreader => by cases hreader⟩
  | case6 s reader hr row r hnext =>
    obtain ⟨f, hf, first, n, hopen, rfl⟩ := hs.reader reader hr
    refine Answers.of_row ⟨hs.pending, fun t ht => ?_⟩
      ⟨f, hf, RowReader.stores_of_next hopen hnext⟩
    cases ht
    refine ⟨f, hf, first, n + 1, hopen, ?_⟩
    rw [RowReader.nexts_succ, hnext]

variable (h : ∀ f ∈ scan.fragments, ∀ row, disk.Stores f.path row →
  ∀ passed, scan.deliver row = .ok (some passed) → P passed)
include h

theorem ScanState.Within.answers_next {s : ScanState} (hs : s.Within disk scan) :
    Answers (Within disk scan) P (s.next scan disk) := by
  fun_induction ScanState.next scan disk s with
  | case1 s e t hpull | case3 s row t hpull e | case2 s t hpull =>
    have hanswer := hs.answers_pull
    rw [hpull] at hanswer
    exact ⟨hanswer.state, fun _ hrow => by cases hrow⟩
  | case4 s row t hpull passed hdeliver =>
    have hanswer := hs.answers_pull
    rw [hpull] at hanswer
    obtain ⟨f, hf, hstores⟩ := hanswer.row row rfl
    exact Answers.of_row hanswer.state (h f hf row hstores passed hdeliver)
  | case5 s row t hpull _ ih =>
    have hanswer := hs.answers_pull
    rw [hpull] at hanswer
    exact ih hanswer.state

/-- A sequential scan yields what it delivers of the rows that its files store. -/
theorem yieldsOnly_seqScan : (seqScan disk scan).YieldsOnly P := by
  have hfresh : ∀ n, ScanState.Within disk scan ⟨scan.fragments, none, n⟩ :=
    fun _ => ⟨fun _ hf => hf, fun _ hreader => (by cases hreader)⟩
  have hinvariant : (seqScan disk scan).Invariant (ScanState.Within disk scan) P :=
    { start := hfresh 0
      init := fun _ s _ => hfresh s.scanned
      next := fun cancelled _ hs => answers_of_cancelled hs cancelled (hs.answers_next h)
      reset := fun s _ => hfresh s.scanned
      close := fun _ hs => ⟨hs.pending, fun _ hreader => (by cases hreader)⟩ }
  exact hinvariant.yieldsOnly

end Sequential

/-! ## Index scans -/

section ByIndex

variable {disk : Disk} {scan : IndexScan} {content : Bytes} {P : Row → Prop}

/-- The offsets at hand are those of good rows in the file that is read. -/
structure IndexScanState.Within (scan : IndexScan) (content : Bytes) (P : Row → Prop)
    (s : IndexScanState) : Prop where
  offsets : ∀ offset ∈ s.offsets, ∃ row t,
    (RowReader.standing scan.data.path content offset).next = (.ok (some row), t) ∧ P row
  rows : ∀ r, s.rows = some r → r.Reads scan.data.path content

variable (hopen : RowReader.open? disk scan.data.path = .ok (.ofContent scan.data.path content))
  (hfind : ∀ offsets, scan.find = .ok offsets → ∀ offset ∈ offsets, ∃ row t,
    (RowReader.standing scan.data.path content offset).next = (.ok (some row), t) ∧ P row)

include hopen hfind in
theorem IndexScanState.Within.init {s : IndexScanState} (hs : s.Within scan content P) :
    (s.init scan disk).2.Within scan content P := by
  rw [IndexScanState.init]
  split
  next => exact hs
  next offsets hoffsets =>
    dsimp only
    rw [hopen]
    refine ⟨hfind offsets hoffsets, fun r hr => ?_⟩
    cases hr
    exact RowReader.reads_standing scan.data.path content 0

theorem IndexScanState.Within.answers_next (hsize : content.length ≤ RowReader.maxPosition)
    {s : IndexScanState} (hs : s.Within scan content P) :
    Answers (Within scan content P) P s.next := by
  rw [IndexScanState.next]
  split
  next => exact Answers.of_none hs
  next offset hoffset =>
    split
    next => exact Answers.of_error hs _
    next reader hreader =>
      have hreads := hs.rows reader hreader
      obtain ⟨row, t, hnext, hrow⟩ := hs.offsets offset (List.mem_of_getElem? hoffset)
      obtain ⟨hlt, -, n, rfl⟩ := RowReader.next_standing_of_ok hnext
      rw [RowReader.readAt_of_next hreads (by omega) hnext]
      refine Answers.of_row ⟨hs.offsets, fun r hr => ?_⟩ hrow
      cases hr
      exact RowReader.reads_standing scan.data.path content n

include hopen hfind in
/-- An index scan yields the rows at the offsets that are found. -/
theorem yieldsOnly_indexScan (hsize : content.length ≤ RowReader.maxPosition) :
    (indexScan disk scan).YieldsOnly P := by
  have hinvariant : (indexScan disk scan).Invariant (IndexScanState.Within scan content P) P :=
    { start := ⟨fun _ hoffset => absurd hoffset List.not_mem_nil, fun _ hr => (by cases hr)⟩
      init := fun _ _ hs => hs.init hopen hfind
      next := fun cancelled _ hs => answers_of_cancelled hs cancelled (hs.answers_next hsize)
      reset := fun _ hs => ⟨hs.offsets, hs.rows⟩
      close := fun _ hs => ⟨hs.offsets, fun _ hr => (by cases hr)⟩ }
  exact hinvariant.yieldsOnly

end ByIndex

end BlockQuery.RowSource
