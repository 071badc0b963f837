import BlockQuery.Proofs.RowFile.Damage

/-!
# Places of appended rows

An appender counts the bytes of the records it took, so that the offsets it
gives out are those of the records in the closed file.  A reader of this file
meets them in the same order, and it finds each row at its offset again,
whatever it was asked before.
-/

namespace BlockQuery

namespace Record

theorem offsets_append (start : ℕ) (before after : List Row) :
    offsets start (before ++ after) =
      offsets start before ++ offsets (start + (before.flatMap encode).length) after := by
  induction before generalizing start with
  | nil => rfl
  | cons row before ih =>
    rw [List.cons_append, offsets, offsets, ih, List.cons_append, List.flatMap_cons,
      List.length_append, Nat.add_assoc]

/-- The record of a row starts behind the records before it. -/
theorem getElem?_offsets (before : List Row) (row : Row) (after : List Row) :
    (offsets 0 (before ++ row :: after))[before.length]? =
      some (before.flatMap encode).length := by
  rw [offsets_append, List.getElem?_append_right (length_offsets 0 before).le, length_offsets,
    Nat.sub_self, Nat.zero_add]
  rfl

/-- Behind the record of a row the next one starts, or the file ends. -/
theorem getD_offsets (before : List Row) (row : Row) (after : List Row) :
    ((offsets 0 (before ++ row :: after))[before.length + 1]?).getD
        ((before ++ row :: after).flatMap encode).length =
      (before.flatMap encode).length + (encode row).length := by
  have hsplit : before ++ row :: after = (before ++ [row]) ++ after := by
    rw [List.append_assoc, List.singleton_append]
  have hlength : before.length + 1 = (before ++ [row]).length := by
    rw [List.length_append, List.length_singleton]
  have hbytes : ((before ++ [row]).flatMap encode).length =
      (before.flatMap encode).length + (encode row).length := by
    rw [List.flatMap_append, List.flatMap_singleton, List.length_append]
  rw [hsplit, hlength, ← hbytes]
  cases after with
  | nil =>
    rw [List.append_nil, List.getElem?_eq_none (length_offsets 0 _).le]
    rfl
  | cons next after =>
    rw [getElem?_offsets]
    rfl

end Record

/-! ## Offsets of an appender -/

namespace RowAppender

/-- The offsets that rows get when they are appended one after another. -/
def places (appender : RowAppender) (disk : Disk) : List Row → List ℕ
  | [] => []
  | row :: rows =>
    appender.offset :: places (appender.append disk row).1 (appender.append disk row).2 rows

variable (appender : RowAppender) (disk : Disk)

theorem places_eq_offsets (rows : List Row) :
    appender.places disk rows = Record.offsets appender.offset rows := by
  induction rows generalizing appender disk with
  | nil => rfl
  | cons row rows ih => rw [places, ih, offset_append, Record.offsets]

theorem offset_of_create {appender : RowAppender} {disk made : Disk} {path : String}
    (h : create disk path = (.ok appender, made)) : appender.offset = 0 := by
  rw [create] at h
  split at h
  · cases h
  · split at h
    · cases h
    · cases h
      rfl

/-- An appender stands behind the records that it took. -/
theorem offset_appendAll (rows : List Row) :
    (appender.appendAll disk rows).1.offset =
      appender.offset + (rows.flatMap Record.encode).length := by
  induction rows generalizing appender disk with
  | nil => rfl
  | cons row rows ih =>
    have happend : appender.appendAll disk (row :: rows) =
        (appender.append disk row).1.appendAll (appender.append disk row).2 rows := rfl
    rw [happend, ih, offset_append, List.flatMap_cons, List.length_append, Nat.add_assoc]

end RowAppender

/-! ## Calls of a reader -/

namespace RowReader

/-- What a reader can be asked to do. -/
inductive Call where
  | next
  | readAll
  | readAt (offset : ℕ)
  | seek (offset : ℕ)
  | reset

/-- A reader set to a place; one that cannot be set to it stays. -/
def moved (r : RowReader) (offset : ℕ) : RowReader := (r.seek offset).toOption.getD r

/-- A reader after a call, whether the call succeeds or fails. -/
def perform (r : RowReader) : Call → RowReader
  | .next => r.next.2
  | .readAll => (r.readAll []).2
  | .readAt offset => (r.readAt offset).2
  | .seek offset => r.moved offset
  | .reset => r.moved 0

/-! ## Readers of one file -/

/-- Whether two readers read one file, at whatever places. -/
structure SameFile (r s : RowReader) : Prop where
  path : s.path = r.path
  source : s.source = r.source
  size : s.size = r.size

section SameFile

variable {r s t : RowReader}

theorem SameFile.refl (r : RowReader) : r.SameFile r := ⟨rfl, rfl, rfl⟩

theorem SameFile.symm (h : r.SameFile s) : s.SameFile r :=
  ⟨h.path.symm, h.source.symm, h.size.symm⟩

theorem SameFile.trans (h : r.SameFile s) (h' : s.SameFile t) : r.SameFile t :=
  ⟨h'.path.trans h.path, h'.source.trans h.source, h'.size.trans h.size⟩

theorem sameFile_take (r : RowReader) (n : ℕ) : r.SameFile (r.take n).2 := by
  unfold RowReader.take
  split
  · exact .refl r
  · split
    all_goals exact ⟨rfl, rfl, rfl⟩

theorem sameFile_readBody (r : RowReader) (field : Bytes) (length : ℕ) :
    r.SameFile (r.readBody field length).2 := by
  have htake := r.sameFile_take (length - 4)
  unfold RowReader.readBody
  split
  next heq => rwa [heq] at htake
  next heq =>
    rw [heq] at htake
    split
    · exact htake
    · exact ⟨htake.path, htake.source, htake.size⟩

theorem sameFile_next (r : RowReader) : r.SameFile r.next.2 := by
  have htake := r.sameFile_take 4
  unfold RowReader.next
  split
  · exact .refl r
  · dsimp only
    split
    · exact .refl r
    · split
      next heq => rwa [heq] at htake
      next heq =>
        rw [heq] at htake
        split
        · exact htake
        · exact htake.trans (sameFile_readBody _ _ _)

theorem sameFile_readAll (r : RowReader) (done : List Row) : r.SameFile (r.readAll done).2 := by
  have hsame {r s : RowReader} {result} (hnext : r.next = (result, s)) : r.SameFile s := by
    have hsame := r.sameFile_next
    rwa [hnext] at hsame
  induction r using next_induction generalizing done with
  | error r e s hnext =>
    rw [readAll_of_error hnext]
    exact hsame hnext
  | finished r s hnext =>
    rw [readAll_of_end hnext]
    exact hsame hnext
  | row r row s hnext ih =>
    rw [readAll_of_row hnext]
    exact (hsame hnext).trans (ih (row :: done))

theorem sameFile_of_seek {offset : ℕ} (hseek : r.seek offset = .ok s) : r.SameFile s := by
  rw [seek] at hseek
  split at hseek
  · cases hseek
  · cases hseek
    exact ⟨rfl, rfl, rfl⟩

theorem sameFile_moved (r : RowReader) (offset : ℕ) : r.SameFile (r.moved offset) := by
  rw [RowReader.moved]
  cases hseek : r.seek offset with
  | error e => exact .refl r
  | ok s => exact sameFile_of_seek hseek

theorem sameFile_readAt (r : RowReader) (offset : ℕ) : r.SameFile (r.readAt offset).2 := by
  unfold RowReader.readAt
  cases hseek : r.seek offset with
  | error e => exact .refl r
  | ok s =>
    have hnext := (sameFile_of_seek hseek).trans s.sameFile_next
    dsimp only
    split
    all_goals
      next heq => rwa [heq] at hnext

/-- A place is found from the file alone, wherever a reader stands. -/
theorem SameFile.seek_eq (h : r.SameFile s) (offset : ℕ) : s.seek offset = r.seek offset := by
  obtain ⟨path, source, size, _, _, _⟩ := r
  obtain ⟨_, _, _, _, _, _⟩ := s
  obtain ⟨rfl, rfl, rfl⟩ := h
  rfl

theorem SameFile.readAt_eq (h : r.SameFile s) (offset : ℕ) :
    (s.readAt offset).1 = (r.readAt offset).1 := by
  rw [readAt, readAt, h.seek_eq]
  cases r.seek offset with
  | error e => rfl
  | ok t => rfl

end SameFile

namespace Reads

variable {r s : RowReader} {path : String} {content : Bytes}

theorem of_sameFile (h : r.Reads path content) (hs : r.SameFile s) : s.Reads path content :=
  ⟨hs.path.trans h.path, hs.source.trans h.source, hs.size.trans h.size⟩

theorem next (h : r.Reads path content) : r.next.2.Reads path content :=
  h.of_sameFile r.sameFile_next

theorem readAll (h : r.Reads path content) (done : List Row) :
    (r.readAll done).2.Reads path content :=
  h.of_sameFile (r.sameFile_readAll done)

theorem moved (h : r.Reads path content) (offset : ℕ) : (r.moved offset).Reads path content :=
  h.of_sameFile (r.sameFile_moved offset)

theorem readAt (h : r.Reads path content) (offset : ℕ) :
    (r.readAt offset).2.Reads path content :=
  h.of_sameFile (r.sameFile_readAt offset)

/-- No call makes a reader one of another file. -/
theorem perform (h : r.Reads path content) (call : Call) : (r.perform call).Reads path content := by
  cases call with
  | next => exact h.next
  | readAll => exact h.readAll []
  | readAt offset => exact h.readAt offset
  | seek offset => exact h.moved offset
  | reset => exact h.moved 0

theorem foldl_perform (h : r.Reads path content) (calls : List Call) :
    (calls.foldl RowReader.perform r).Reads path content := by
  induction calls generalizing r with
  | nil => exact h
  | cons call calls ih => exact ih (h.perform call)

end Reads

/-- A reader that was asked for the rows in front of a record stands before it, and the row of the
record comes next. -/
theorem nexts_ofContent {content : Bytes} {before : List Row} {row : Row} {ys : Bytes}
    (hfits : ∀ r ∈ before ++ [row], r.Fits) (path : String)
    (hcontent : content = (before ++ [row]).flatMap Record.encode ++ ys) :
    ((ofContent path content).nexts before.length).2.offset =
        (before.flatMap Record.encode).length ∧
      ((ofContent path content).nexts (before.length + 1)).1 =
        (before ++ [row]).map fun row => .ok (some row) := by
  have hdrop : content.drop 0 = (before ++ [row]).flatMap Record.encode ++ ys := hcontent
  have hall : (standing path content 0).nexts (before ++ [row]).length = _ :=
    nexts_standing hfits hdrop (Nat.zero_le _)
  rw [List.flatMap_append, List.append_assoc] at hdrop
  have hfirst : (standing path content 0).nexts before.length = _ :=
    nexts_standing (List.forall_mem_append.mp hfits).1 hdrop (Nat.zero_le _)
  rw [List.length_append, List.length_singleton] at hall
  rw [ofContent_eq_standing, hfirst, hall]
  exact ⟨Nat.zero_add _, rfl⟩

end RowReader

/-! ## What was appended -/

/-- What was appended to a new file and closed is read back.  The file is as long as the appender
tells, and all its rows are read in their order, each from the offset that it was appended at.
Whatever a reader was asked before, it finds a row at its offset, if a stream can be set there, and
then it stands in front of the next row or at the end of the file. -/
theorem RowAppender.rows_read_back {disk made filled stored : Disk} {path : String}
    {appender last : RowAppender} {rows : List Row} {size : ℕ}
    (hcreate : create disk path = (.ok appender, made))
    (hfits : ∀ row ∈ rows, row.Fits)
    (hfilled : appender.appendAll made rows = (last, filled))
    (hclose : last.close filled = (size, stored)) :
    ∃ content reader, stored.read path = .ok content ∧ size = content.length ∧
      RowReader.open? stored path = .ok reader ∧ (reader.readAll []).1 = .ok rows ∧
      ∀ i row, rows[i]? = some row → ∃ start, (appender.places made rows)[i]? = some start ∧
        (reader.nexts i).2.offset = start ∧
        (reader.nexts (i + 1)).1 = (rows.take (i + 1)).map (fun row => .ok (some row)) ∧
        (start ≤ RowReader.maxPosition → ∀ calls : List RowReader.Call, ∃ after,
          (calls.foldl RowReader.perform reader).readAt start = (.ok row, after) ∧
            after.offset = ((appender.places made rows)[i + 1]?).getD size) := by
  have hstored : disk.storeRows path rows = (.ok size, stored) := by
    rw [Disk.storeRows, hcreate]
    simp only [hfilled, hclose]
  have hzero : appender.offset = 0 := offset_of_create hcreate
  have hsize : size = (rows.flatMap Record.encode).length := by
    have hoffset := offset_appendAll appender made rows
    rw [hfilled, hzero, Nat.zero_add] at hoffset
    exact (congrArg Prod.fst hclose).symm.trans hoffset
  obtain ⟨number, hentry⟩ := Disk.openEntry_storeRows hstored
  refine ⟨_, _, ?_, hsize, RowReader.open?_of_openEntry hentry,
    RowReader.readAll_standing hfits rfl (Nat.zero_le _) [], ?_⟩
  · rw [Disk.read, hentry]
    rfl
  · rw [places_eq_offsets, hzero, hsize]
    intro i row hi
    -- Places are sums over the records in front of the row, so split the rows there.
    obtain ⟨before, after, rfl, rfl⟩ :
        ∃ before after, rows = before ++ row :: after ∧ before.length = i := by
      obtain ⟨hlt, rfl⟩ := List.getElem?_eq_some_iff.mp hi
      refine ⟨rows.take i, rows.drop (i + 1), ?_, List.length_take_of_le hlt.le⟩
      rw [← List.drop_eq_getElem_cons hlt, List.take_append_drop]
    have htake : (before ++ row :: after).take (before.length + 1) = before ++ [row] := by
      rw [List.take_length_add_append]
      rfl
    have hfirst : ∀ r ∈ before ++ [row], r.Fits := by
      intro r hr
      rw [← htake] at hr
      exact hfits r (List.mem_of_mem_take hr)
    have hcontent : (before ++ row :: after).flatMap Record.encode =
        (before ++ [row]).flatMap Record.encode ++ after.flatMap Record.encode := by
      rw [← List.flatMap_append, List.append_assoc, List.singleton_append]
    obtain ⟨hoffset, hnexts⟩ := RowReader.nexts_ofContent hfirst path hcontent
    have hrow : row.Fits := hfits row (List.mem_append_right _ List.mem_cons_self)
    have hdrop : ((before ++ row :: after).flatMap Record.encode).drop
        (before.flatMap Record.encode).length =
          Record.encode row ++ after.flatMap Record.encode := by
      rw [List.flatMap_append, List.drop_left, List.flatMap_cons]
    have hle : (before.flatMap Record.encode).length ≤
        ((before ++ row :: after).flatMap Record.encode).length := by
      rw [List.flatMap_append, List.length_append]
      exact Nat.le_add_right _ _
    refine ⟨_, Record.getElem?_offsets before row after, hoffset, by rw [hnexts, htake], ?_⟩
    intro hmax calls
    -- The calls before may leave the reader anywhere, but it still reads the same file.
    have hreads := (RowReader.reads_standing path
      ((before ++ row :: after).flatMap Record.encode) 0).foldl_perform calls
    refine ⟨_, RowReader.readAt_of_reads hreads hrow hdrop hle hmax, ?_⟩
    rw [Record.getD_offsets]
    rfl

/-- A row that holds a number other than any and a text, before a row that is read in between. -/
theorem RowAppender.rows_read_back_of_nan :
    ∃ appender made last filled reader after,
      create .empty "t.rows" = (.ok appender, made) ∧
      appender.appendAll made
        [[.float8 ⟨0x7ff8000000000001⟩, .text "é"], [.null], []] = (last, filled) ∧
      (last.close filled).1 = 47 ∧
      RowReader.open? (last.close filled).2 "t.rows" = .ok reader ∧
      (reader.readAll []).1 = .ok [[.float8 ⟨0x7ff8000000000001⟩, .text "é"], [.null], []] ∧
      ([.next, .seek 3, .next, .readAt 37, .reset].foldl RowReader.perform reader).readAt 26 =
        (.ok [.null], after) ∧ after.offset = 37 := by
  have hfits : ∀ row ∈ [[Datum.float8 ⟨0x7ff8000000000001⟩, .text "é"], [.null], []],
      Row.Fits row := by
    rw [List.forall_mem_cons, List.forall_mem_cons, List.forall_mem_singleton]
    exact ⟨⟨by decide, by decide⟩, ⟨by decide, by decide⟩, ⟨by decide, by decide⟩⟩
  obtain ⟨content, reader, -, -, hopen, hall, hplaces⟩ :=
    rows_read_back create_on_empty hfits Prod.mk.eta.symm Prod.mk.eta.symm
  obtain ⟨start, hstart, -, -, hread⟩ := hplaces 1 [.null] rfl
  cases hstart
  obtain ⟨after, hafter, hoffset⟩ :=
    hread (by decide) [.next, .seek 3, .next, .readAt 37, .reset]
  exact ⟨_, _, _, _, reader, after, create_on_empty, Prod.mk.eta.symm, rfl, hopen, hall, hafter,
    hoffset⟩

end BlockQuery
