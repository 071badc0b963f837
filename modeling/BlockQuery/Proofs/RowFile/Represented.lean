import BlockQuery.Proofs.RowFile.Stored

/-!
# Rows that come back

Only rows that have a record are ever read from a file.  An appender takes any row, and a row comes
back from its offset exactly if it has a record.
-/

namespace BlockQuery

namespace RowReader

variable {path : String} {content : Bytes} {offset : ℕ} {r after : RowReader} {row : Row}

/-- Only a row that has a record is ever found at an offset. -/
theorem fits_of_readAt (hr : r.Reads path content) (h : r.readAt offset = (.ok row, after)) :
    row.Fits ∧ offset ≤ maxPosition := by
  rcases Nat.lt_or_ge maxPosition offset with hfar | hmax
  · rw [readAt, seek, if_pos hfar] at h
    cases h
  · refine ⟨?_, hmax⟩
    rw [readAt, seek_of_reads hr hmax] at h
    dsimp only at h
    split at h
    next => cases h
    next found after' hnext =>
      cases h
      exact (next_standing_of_ok hnext).2.1
    next => cases h

end RowReader

/-! ## What an appender took -/

namespace RowAppender

/-- What an appender can be asked to do before it is closed. -/
inductive Act where
  | append (row : Row)
  | flush

/-- The bytes that an act brings. -/
def Act.bytes : Act → Bytes
  | append row => Record.encode row
  | flush => []

/-- An appender and its disk after an act. -/
def act (state : RowAppender × Disk) : Act → RowAppender × Disk
  | .append row => state.1.append state.2 row
  | .flush => state.1.flush state.2

theorem adds_act (state : RowAppender × Disk) (a : Act) :
    Adds state.1 state.2 a.bytes (act state a) := by
  cases a with
  | append row => exact adds_append state.1 state.2 row
  | flush => exact adds_flush state.1 state.2

theorem adds_acts (state : RowAppender × Disk) (acts : List Act) :
    Adds state.1 state.2 (acts.flatMap Act.bytes) (acts.foldl act state) := by
  induction acts generalizing state with
  | nil => exact Adds.refl state.1 state.2
  | cons a acts ih => exact (adds_act state a).trans (ih _)

theorem offset_act (state : RowAppender × Disk) (a : Act) :
    (act state a).1.offset = state.1.offset + a.bytes.length := by
  cases a with
  | append row => exact offset_append state.1 state.2 row
  | flush => rfl

/-- An appender stands behind all bytes that were brought. -/
theorem offset_acts (state : RowAppender × Disk) (acts : List Act) :
    (acts.foldl act state).1.offset = state.1.offset + (acts.flatMap Act.bytes).length := by
  induction acts generalizing state with
  | nil => rfl
  | cons a acts ih =>
    rw [List.foldl_cons, ih, offset_act, List.flatMap_cons, List.length_append, Nat.add_assoc]

/-- The closed file of an appender, with a row among all that it took. -/
theorem openEntry_of_acts {disk made filled : Disk} {path : String}
    {appender written last : RowAppender} {between : Disk} {before after : List Act} {row : Row}
    (hcreate : create disk path = (.ok appender, made))
    (hbefore : before.foldl act (appender, made) = (written, between))
    (hafter : after.foldl act (written.append between row) = (last, filled)) :
    ∃ number front back,
      (last.close filled).2.openEntry path =
        .ok (.file number (front ++ (Record.encode row ++ back))) ∧
      written.offset = front.length := by
  have hfront := adds_acts (appender, made) before
  have hoffset := offset_acts (appender, made) before
  have hback := adds_acts (written.append between row) after
  rw [hbefore] at hfront hoffset
  rw [hafter] at hback
  obtain ⟨number, hentry⟩ :=
    openEntry_close hcreate (hfront.trans ((adds_append written between row).trans hback))
  rw [offset_of_create hcreate, Nat.zero_add] at hoffset
  exact ⟨number, _, _, hentry, hoffset⟩

/-- Whatever else an appender took, a row that it was given comes back from the offset that was
told for it exactly if the row has a record and a stream can be set to the offset. -/
theorem readAt_eq_row_iff {disk made filled stored : Disk} {path : String}
    {appender written last : RowAppender} {between : Disk} {before after : List Act} {row : Row}
    {size : ℕ} (hcreate : create disk path = (.ok appender, made))
    (hbefore : before.foldl act (appender, made) = (written, between))
    (hafter : after.foldl act (written.append between row) = (last, filled))
    (hclose : last.close filled = (size, stored)) :
    ∃ reader, RowReader.open? stored path = .ok reader ∧ ∀ calls : List RowReader.Call,
      ((calls.foldl RowReader.perform reader).readAt written.offset).1 = .ok row ↔
        row.Fits ∧ written.offset ≤ RowReader.maxPosition := by
  obtain ⟨number, front, back, hentry, hoffset⟩ := openEntry_of_acts hcreate hbefore hafter
  rw [hclose] at hentry
  refine ⟨_, RowReader.open?_of_openEntry hentry, fun calls => ?_⟩
  -- The calls before may leave the reader anywhere, but it still reads the same file.
  have hreads := (RowReader.reads_standing path
    (front ++ (Record.encode row ++ back)) 0).foldl_perform calls
  rw [hoffset, RowReader.ofContent_eq_standing]
  constructor
  · intro h
    exact RowReader.fits_of_readAt hreads (Prod.ext h rfl)
  · rintro ⟨hfits, hmax⟩
    have hle : front.length ≤ (front ++ (Record.encode row ++ back)).length := by
      rw [List.length_append]
      exact Nat.le_add_right _ _
    rw [RowReader.readAt_of_reads hreads hfits List.drop_left hle hmax]

/-- A new file of one row that has no record. -/
theorem readAt_ne_row_of_not_fits {disk made : Disk} {path : String} {appender : RowAppender}
    {row : Row} (hcreate : create disk path = (.ok appender, made)) (h : ¬row.Fits) :
    ∃ reader, RowReader.open? ((appender.append made row).1.close
        (appender.append made row).2).2 path = .ok reader ∧
      (reader.readAt appender.offset).1 ≠ .ok row := by
  have hbefore : [].foldl act (appender, made) = (appender, made) := rfl
  have hafter : [].foldl act (appender.append made row) =
      ((appender.append made row).1, (appender.append made row).2) := rfl
  obtain ⟨number, front, back, hentry, -⟩ := openEntry_of_acts hcreate hbefore hafter
  refine ⟨_, RowReader.open?_of_openEntry hentry, fun hread => h ?_⟩
  exact (RowReader.fits_of_readAt (RowReader.reads_standing _ _ 0) (Prod.ext hread rfl)).1

namespace Sample

/-- An appender to a file on an empty disk after some acts. -/
def appenderAfter (acts : List Act) : RowAppender × Disk :=
  acts.foldl act (⟨"t.rows", ⟨[".", "t.rows"], 0⟩, [], 0, 0, 0⟩,
    ⟨[([".", "t.rows"], .file 0 [])], 1⟩)

end Sample

/-- A row of too many values for their count is taken, and it does not come back. -/
theorem wide_row_lost : ∃ appender made reader, create .empty "t.rows" = (.ok appender, made) ∧
    RowReader.open? ((appender.append made (List.replicate 65536 .null)).1.close
      (appender.append made (List.replicate 65536 .null)).2).2 "t.rows" = .ok reader ∧
    (reader.readAt appender.offset).1 ≠ .ok (List.replicate 65536 .null) := by
  have hwide : ¬Row.Fits (List.replicate 65536 .null) := by
    intro h
    have hlength := h.length_lt
    rw [List.length_replicate] at hlength
    exact absurd hlength (by decide)
  obtain ⟨reader, hopen, hread⟩ := readAt_ne_row_of_not_fits create_on_empty hwide
  exact ⟨_, _, reader, create_on_empty, hopen, hread⟩

open Sample in
/-- A row that was given between others comes back, also to a reader that has read before. -/
theorem row_between_comes_back : ∃ appender made reader,
    create .empty "t.rows" = (.ok appender, made) ∧
    [Act.append [.null], .flush].foldl act (appender, made) =
      appenderAfter [.append [.null], .flush] ∧
    RowReader.open? ((appenderAfter [.append [.null], .flush, .append [.text "é"], .flush]).1.close
      (appenderAfter [.append [.null], .flush, .append [.text "é"], .flush]).2).2 "t.rows" =
        .ok reader ∧
    (([.next, .seek 3, .next].foldl RowReader.perform reader).readAt 11).1 =
      .ok [.text "é"] := by
  have hbefore : [Act.append [.null], .flush].foldl act (appenderAfter []) =
      ((appenderAfter [.append [.null], .flush]).1, (appenderAfter [.append [.null], .flush]).2) :=
    rfl
  have hafter : [Act.flush].foldl act ((appenderAfter [.append [.null], .flush]).1.append
      (appenderAfter [.append [.null], .flush]).2 [.text "é"]) =
        ((appenderAfter [.append [.null], .flush, .append [.text "é"], .flush]).1,
          (appenderAfter [.append [.null], .flush, .append [.text "é"], .flush]).2) := rfl
  obtain ⟨reader, hopen, hiff⟩ :=
    readAt_eq_row_iff create_on_empty hbefore hafter Prod.mk.eta.symm
  refine ⟨_, _, reader, create_on_empty, rfl, hopen, ?_⟩
  exact (hiff _).mpr ⟨⟨by decide, by decide⟩, by decide⟩

end RowAppender

end BlockQuery
