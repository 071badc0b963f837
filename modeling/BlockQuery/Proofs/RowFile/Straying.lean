import BlockQuery.Proofs.RowFile.Positions

/-!
# Readers that stray

A reader keeps two places, that of the next record and that of its stream.  A read that fails
inside a record has moved the stream only.  From then on the rows come from where the stream
stands, until the reader is set to a place again.
-/

namespace BlockQuery

/-- Whether a row is the one of the record from one place to another. -/
def Record.Spans (content : Bytes) (start stop : ℕ) (row : Row) : Prop :=
  ∃ used, decode (content.drop start) = .ok (row, used) ∧ stop = start + used

/-- Whether a failed read had found a record to read: there were bytes enough for one. -/
def StorageError.isInside : StorageError → Bool
  | .corruption _ (.tail _) | .corruption _ .noRecord => false
  | _ => true

/-- Whether a read has failed inside a record. -/
def failsInside {α : Type} : Except StorageError α → Bool
  | .ok _ => false
  | .error e => e.isInside

namespace RowReader

variable {path : String} {content : Bytes} {offset stream : ℕ}

/-! ## One more row -/

/-- What asking for a row gives in front of a file's bytes, and to where it moves both places. -/
inductive Asked (content : Bytes) (offset stream : ℕ) :
    Except StorageError (Option Row) → ℕ → ℕ → Prop
  | ended : content.length ≤ offset → Asked content offset stream (.ok none) offset stream
  | tail (remaining : ℕ) :
      Asked content offset stream (.error (.corruption offset (.tail remaining))) offset stream
  | row {row : Row} {used : ℕ} : Record.decode (content.drop stream) = .ok (row, used) →
      Asked content offset stream (.ok (some row)) (offset + used) (stream + used)
  | lost {e : StorageError} {stream' : ℕ} : e.isInside = true → offset < stream' →
      Asked content offset stream (.error e) offset stream'

theorem take_streaming_of_lt (path : String) (offset : ℕ) {n : ℕ}
    (hlt : content.length < stream + n) : (streaming path content offset stream).take n =
      (.error .endOfFile, streaming path content offset (max stream content.length)) := by
  have hrest : content.drop (max stream content.length) = [] :=
    List.drop_eq_nil_of_le (le_max_right _ _)
  rw [streaming, streaming, hrest]
  exact if_pos hlt

/-- The length field and the body of a record are read one after the other. -/
theorem asked_readBody (path : String) {length : ℕ} (hle : offset ≤ stream) (hmin : 4 ≤ length)
    (hlength : length = Bytes.toNat ((content.drop stream).take 4)) :
    ∃ offset' stream', Asked content offset stream
        ((streaming path content offset (stream + 4)).readBody
          ((content.drop stream).take 4) length).1 offset' stream' ∧
      ((streaming path content offset (stream + 4)).readBody
        ((content.drop stream).take 4) length).2 = streaming path content offset' stream' := by
  rw [readBody]
  rcases Nat.lt_or_ge content.length (stream + 4 + (length - 4)) with hshort | hroom
  · rw [take_streaming_of_lt path offset hshort]
    exact ⟨_, _, .lost rfl (by omega), rfl⟩
  · rw [take_streaming_of_le path offset hroom, ← List.drop_drop]
    dsimp only
    have hrecord : (content.drop stream).take 4 ++
        ((content.drop stream).drop 4).take (length - 4) = (content.drop stream).take length := by
      rw [← List.take_add]
      congr 1
      omega
    rw [hrecord]
    cases hdecode : Record.decode ((content.drop stream).take length) with
    | error e => exact ⟨_, _, .lost rfl (by omega), rfl⟩
    | ok found =>
      obtain ⟨row, used⟩ := found
      -- The checked length is the one that the body was read by, so the record ends where it does.
      have hdecoded := Record.decode_eq_ok_iff.mp hdecode
      obtain rfl : used = length := by
        rw [← hdecoded.length_eq, List.take_take, Nat.min_eq_left hmin, hlength]
      refine ⟨_, _, .row (Record.decode_eq_ok_iff.mpr hdecoded.of_take), ?_⟩
      rw [show stream + 4 + (used - 4) = stream + used by omega]
      rfl

/-- Asking a reader for a row, wherever its stream stands behind its record. -/
theorem asked_next (path : String) (content : Bytes) (hle : offset ≤ stream) :
    ∃ offset' stream',
      Asked content offset stream (streaming path content offset stream).next.1 offset' stream' ∧
        (streaming path content offset stream).next.2 =
          streaming path content offset' stream' := by
  have hsize : (streaming path content offset stream).size = content.length := rfl
  have hoffset : (streaming path content offset stream).offset = offset := rfl
  rw [next, hsize, hoffset]
  split
  next hend => exact ⟨_, _, .ended hend, rfl⟩
  next hmore =>
    dsimp only
    split
    next => exact ⟨_, _, .tail _, rfl⟩
    next hmin =>
      rcases Nat.lt_or_ge content.length (stream + 4) with hshort | hroom
      · rw [take_streaming_of_lt path offset hshort]
        exact ⟨_, _, .lost rfl (by omega), rfl⟩
      · rw [take_streaming_of_le path offset hroom]
        dsimp only
        split
        next => exact ⟨_, _, .lost rfl (by omega), rfl⟩
        next hlength =>
          rw [Bool.or_eq_true, not_or, decide_eq_true_eq, not_lt, Record.minLength] at hlength
          exact asked_readBody path hle (by omega) rfl

/-! ## Calls that make a reader stray -/

/-- Whether a reader strays after a call, given whether it did before: it does so from a read that
fails inside a record on, and no more once it is set to a place. -/
def straysAfter (r : RowReader) (before : Bool) : Call → Bool
  | .next => before || failsInside r.next.1
  | .readAll => before || failsInside (r.readAll []).1
  | .readAt offset => if offset ≤ maxPosition then failsInside (r.readAt offset).1 else before
  | .seek offset => if offset ≤ maxPosition then false else before
  | .reset => false

/-- Whether a reader strays after some calls. -/
def strays (r : RowReader) (before : Bool) : List Call → Bool
  | [] => before
  | call :: calls => strays (r.perform call) (straysAfter r before call) calls

/-- A reader of a file whose stream is ahead of its record exactly if it strays. -/
structure Tracked (path : String) (content : Bytes) (strayed : Bool) (r : RowReader) : Prop where
  streaming_eq : r = streaming path content r.offset r.stream
  le : r.offset ≤ r.stream
  strayed_iff : strayed = true ↔ r.offset < r.stream

theorem tracked_standing (path : String) (content : Bytes) (offset : ℕ) :
    Tracked path content false (standing path content offset) :=
  ⟨rfl, le_rfl, iff_of_false Bool.false_ne_true (lt_irrefl offset)⟩

namespace Tracked

variable {r : RowReader} {strayed : Bool}

theorem reads (h : Tracked path content strayed r) : r.Reads path content := by
  rw [h.streaming_eq]
  exact ⟨rfl, rfl, rfl⟩

theorem next (h : Tracked path content strayed r) :
    Tracked path content (strayed || failsInside r.next.1) r.next.2 := by
  obtain ⟨hr, hle, hstrayed⟩ := h
  generalize r.offset = offset, r.stream = stream at hr hle hstrayed
  subst hr
  obtain ⟨offset', stream', hasked, hafter⟩ := asked_next path content hle
  rw [hafter]
  generalize (streaming path content offset stream).next.1 = result at hasked
  cases hasked with
  | ended =>
    rw [failsInside, Bool.or_false]
    exact ⟨rfl, hle, hstrayed⟩
  | tail =>
    rw [failsInside, StorageError.isInside, Bool.or_false]
    exact ⟨rfl, hle, hstrayed⟩
  | row =>
    refine ⟨rfl, Nat.add_le_add_right hle _, ?_⟩
    rw [failsInside, Bool.or_false, hstrayed]
    exact (Nat.add_lt_add_iff_right).symm
  | lost hinside hlt =>
    refine ⟨rfl, hlt.le, ?_⟩
    rw [failsInside, hinside, Bool.or_true]
    exact iff_of_true rfl hlt

theorem readAll (h : Tracked path content strayed r) (done : List Row) :
    Tracked path content (strayed || failsInside (r.readAll done).1) (r.readAll done).2 := by
  induction r using next_induction generalizing strayed done with
  | error r e s heq =>
    have hnext := h.next
    rw [heq] at hnext
    rwa [readAll_of_error heq]
  | finished r s heq =>
    have hnext := h.next
    rw [heq] at hnext
    rwa [readAll_of_end heq]
  | row r row s heq ih =>
    have hnext := h.next
    rw [heq, failsInside, Bool.or_false] at hnext
    rw [readAll_of_row heq]
    exact ih hnext (row :: done)

theorem moved (h : Tracked path content strayed r) (offset : ℕ) :
    Tracked path content (if offset ≤ maxPosition then false else strayed) (r.moved offset) := by
  rw [RowReader.moved]
  split
  next hmax =>
    rw [seek_of_reads h.reads hmax]
    exact tracked_standing path content offset
  next hmax =>
    rw [seek, if_pos (Nat.lt_of_not_le hmax)]
    exact h

theorem readAt (h : Tracked path content strayed r) (offset : ℕ) :
    Tracked path content
      (if offset ≤ maxPosition then failsInside (r.readAt offset).1 else strayed)
      (r.readAt offset).2 := by
  rw [RowReader.readAt]
  split
  next hmax =>
    have hnext := (tracked_standing path content offset).next
    rw [seek_of_reads h.reads hmax]
    dsimp only
    split
    all_goals
      next heq => rwa [heq] at hnext
  next hmax =>
    rw [seek, if_pos (Nat.lt_of_not_le hmax)]
    exact h

theorem perform (h : Tracked path content strayed r) (call : Call) :
    Tracked path content (straysAfter r strayed call) (r.perform call) := by
  cases call with
  | next => exact h.next
  | readAll => exact h.readAll []
  | readAt offset => exact h.readAt offset
  | seek offset => exact h.moved offset
  | reset => exact h.moved 0

theorem foldl_perform (h : Tracked path content strayed r) (calls : List Call) :
    Tracked path content (strays r strayed calls) (calls.foldl RowReader.perform r) := by
  induction calls generalizing r strayed with
  | nil => exact h
  | cons call calls ih => exact ih (h.perform call)

/-- A row that comes next is the one of the record where the stream stands, and both places move
behind this record. -/
theorem exists_used (h : Tracked path content strayed r) {row : Row} {after : RowReader}
    (hnext : r.next = (.ok (some row), after)) :
    ∃ used, Record.decode (content.drop r.stream) = .ok (row, used) ∧
      after = streaming path content (r.offset + used) (r.stream + used) := by
  obtain ⟨hr, hle, -⟩ := h
  generalize r.offset = offset, r.stream = stream at hr hle ⊢
  subst hr
  obtain ⟨offset', stream', hasked, hafter⟩ := asked_next path content hle
  rw [hnext] at hasked hafter
  cases hasked with
  | row hdecode => exact ⟨_, hdecode, hafter⟩

end Tracked

/-! ## The row at the offset -/

/-- The offset of a reader names the row that comes next, unless the reader strays.  Then the row is
the one where the stream stands, and it is the one at the offset only if the two are alike. -/
theorem spans_offset_iff {disk : Disk} {reader r after : RowReader} {calls : List Call} {row : Row}
    (hread : disk.read path = .ok content) (hopen : open? disk path = .ok reader)
    (hreached : calls.foldl perform reader = r) (hnext : r.next = (.ok (some row), after)) :
    ∃ used, Record.decode (content.drop r.stream) = .ok (row, used) ∧
      after.offset = r.offset + used ∧
      (strays reader false calls = true ↔ r.offset < r.stream) ∧
      (Record.Spans content r.offset after.offset row ↔ (strays reader false calls = true →
        Record.decode (content.drop r.offset) = .ok (row, used))) := by
  have hreader : reader = standing path content 0 := by
    obtain ⟨entry, hentry, hcontent⟩ := Except.bind_eq_ok.mp hread
    cases entry with
    | directory => cases hcontent
    | file number content =>
      cases hcontent
      rw [open?_of_openEntry hentry] at hopen
      cases hopen
      rfl
  have htracked := (tracked_standing path content 0).foldl_perform calls
  rw [← hreader, hreached] at htracked
  obtain ⟨used, hdecode, hafter⟩ := htracked.exists_used hnext
  have hoffset : after.offset = r.offset + used := congrArg RowReader.offset hafter
  refine ⟨used, hdecode, hoffset, htracked.strayed_iff, ?_⟩
  constructor
  · rintro ⟨used', hspans, hstop⟩ -
    obtain rfl : used = used' := by omega
    exact hspans
  · intro halike
    refine ⟨used, ?_, hoffset⟩
    -- A reader that does not stray has its stream at the offset.
    rcases Nat.eq_or_lt_of_le htracked.le with heq | hlt
    · rwa [heq]
    · exact halike (htracked.strayed_iff.mpr hlt)

namespace Sample

/-- Three records, the first one with a byte changed. -/
def damaged : Bytes :=
  (Record.encode [.int4 1]).set 7 9 ++ Record.encode [.int4 2] ++ Record.encode [.int4 2]

def disk : Disk := ⟨[([".", "t.rows"], .file 0 damaged)], 1⟩

theorem openEntry_disk : disk.openEntry "t.rows" = .ok (.file 0 damaged) :=
  Disk.openEntry_alone RowAppender.isAlone_rows rfl

theorem open?_disk : open? disk "t.rows" = .ok (standing "t.rows" damaged 0) :=
  open?_of_openEntry openEntry_disk

/-- A reader of the three records after some calls. -/
def readerAfter (calls : List Call) : RowReader :=
  calls.foldl perform (standing "t.rows" damaged 0)

theorem next_readerAfter {calls : List Call} {row : Row}
    (h : (readerAfter calls).next.1 = .ok (some row)) :
    (readerAfter calls).next = (.ok (some row), (readerAfter calls).next.2) := Prod.ext h rfl

end Sample

open Sample in
/-- Behind a damaged record the next row comes though the offset still names the damaged one. -/
theorem row_behind_damage : ∃ reader after, open? disk "t.rows" = .ok reader ∧
    ([Call.next].foldl perform reader).offset = 0 ∧
    ([Call.next].foldl perform reader).next = (.ok (some [.int4 2]), after) ∧
    ¬Record.Spans damaged 0 after.offset [.int4 2] := by
  have hdecode : Record.decode damaged = .error .badChecksum := by decide +kernel
  have hrow : (readerAfter [.next]).next.1 = .ok (some [.int4 2]) := by decide +kernel
  have hoffset : (readerAfter [.next]).offset = 0 := by decide +kernel
  refine ⟨_, _, open?_disk, hoffset, next_readerAfter hrow, ?_⟩
  rintro ⟨used, hspans, -⟩
  rw [List.drop_zero, hdecode] at hspans
  cases hspans

open Sample in
/-- A reader that strays comes to a row that is like the one at its offset. -/
theorem spans_offset_of_alike : ∃ reader r after, open? disk "t.rows" = .ok reader ∧
    [Call.next, .next].foldl perform reader = r ∧ r.next = (.ok (some [.int4 2]), after) ∧
    strays reader false [.next, .next] = true ∧ r.offset = 15 ∧
    Record.Spans damaged 15 after.offset [.int4 2] := by
  have hread : disk.read "t.rows" = .ok damaged := by
    rw [Disk.read, openEntry_disk]
    rfl
  have hrow : (readerAfter [.next, .next]).next.1 = .ok (some [.int4 2]) := by decide +kernel
  have hoffset : (readerAfter [.next, .next]).offset = 15 := by decide +kernel
  have hstream : (readerAfter [.next, .next]).stream = 30 := by decide +kernel
  have hfirst : Record.decode (damaged.drop 15) = .ok ([.int4 2], 15) := by decide +kernel
  have hsecond : Record.decode (damaged.drop 30) = .ok ([.int4 2], 15) := by decide +kernel
  have hreached : [Call.next, .next].foldl perform (standing "t.rows" damaged 0) =
      readerAfter [.next, .next] := rfl
  obtain ⟨used, hdecode, -, hstrays, hiff⟩ :=
    spans_offset_iff hread open?_disk hreached (next_readerAfter hrow)
  rw [hstream, hsecond] at hdecode
  cases hdecode
  rw [hoffset] at hiff
  rw [hoffset, hstream] at hstrays
  exact ⟨_, _, _, open?_disk, hreached, next_readerAfter hrow, hstrays.mpr (by decide), hoffset,
    hiff.mpr fun _ => hfirst⟩

end RowReader

end BlockQuery
