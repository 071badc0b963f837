import BlockQuery.Proofs.Disk.Directories
import BlockQuery.Proofs.RowFile.Records

/-!
# Appending records

What an appender takes in is in its file or still in its buffer, and no other
file changes.  Closed, the file holds the records of all rows.
-/

namespace BlockQuery.RowAppender

/-- The file of an appender and its buffer behind it hold the given bytes. -/
def Holds (appender : RowAppender) (disk : Disk) (bytes : Bytes) : Prop :=
  ∃ written, disk.get? appender.file.place = some (.file appender.file.number written) ∧
    appender.flushed = written.length ∧ written ++ appender.pending = bytes

/-- An appender and a disk after more bytes came. -/
structure Adds (appender : RowAppender) (disk : Disk) (more : Bytes) (after : RowAppender × Disk) :
    Prop where
  file : after.1.file = appender.file
  holds : ∀ {bytes}, Holds appender disk bytes → Holds after.1 after.2 (bytes ++ more)
  get?_of_ne : ∀ q, q ≠ appender.file.place → after.2.get? q = disk.get? q

theorem Adds.refl (appender : RowAppender) (disk : Disk) : Adds appender disk [] (appender, disk) :=
  ⟨rfl, fun h => by rwa [List.append_nil], fun _ _ => rfl⟩

theorem Adds.trans {appender : RowAppender} {disk : Disk} {xs ys : Bytes}
    {middle after : RowAppender × Disk} (h₁ : Adds appender disk xs middle)
    (h₂ : Adds middle.1 middle.2 ys after) : Adds appender disk (xs ++ ys) after := by
  refine ⟨h₂.file.trans h₁.file, ?_, ?_⟩
  · intro bytes h
    rw [← List.append_assoc]
    exact h₂.holds (h₁.holds h)
  · intro q hq
    rw [h₂.get?_of_ne q (by rwa [h₁.file]), h₁.get?_of_ne q hq]

variable (appender : RowAppender) (disk : Disk)

theorem get?_emit_of_ne (bytes : Bytes) {q : Place} (hq : q ≠ appender.file.place) :
    (emit disk appender bytes).get? q = disk.get? q := by
  unfold emit Disk.writeAt
  split
  next =>
    split
    · exact Disk.get?_put_of_ne disk _ hq
    · rfl
  next => rfl

variable {appender disk} in
theorem get?_emit {written : Bytes}
    (h : disk.get? appender.file.place = some (.file appender.file.number written))
    (hflushed : appender.flushed = written.length) (bytes : Bytes) :
    (emit disk appender bytes).get? appender.file.place =
      some (.file appender.file.number (written ++ bytes)) := by
  rw [emit, Disk.writeAt_eq_put h, hflushed, Disk.overwritten_append]
  exact Disk.get?_put_self disk _ (Disk.one_lt_of_get?_file h)

theorem adds_flush : Adds appender disk [] (appender.flush disk) := by
  refine ⟨rfl, ?_, fun q hq => get?_emit_of_ne appender disk _ hq⟩
  rintro bytes ⟨written, hget, hflushed, rfl⟩
  refine ⟨written ++ appender.pending, get?_emit hget hflushed _, ?_, ?_⟩
  · rw [List.length_append, ← hflushed]
    rfl
  · rfl

/-- Whatever is put past an empty buffer or into the buffer comes behind the rest. -/
theorem adds_buffer (bytes : Bytes) : Adds appender disk bytes (appender.buffer disk bytes) := by
  have hput : ∀ (a : RowAppender) (d : Disk),
      a.pending = [] ∨ a.pending.length + bytes.length ≤ capacity →
        Adds a d bytes (if capacity ≤ bytes.length then
          ({ a with flushed := a.flushed + bytes.length }, emit d a bytes)
        else ({ a with pending := a.pending ++ bytes }, d)) := by
    intro a d hroom
    split
    next hlarge =>
      have hempty : a.pending = [] := by
        rcases hroom with h | h
        · exact h
        · exact List.eq_nil_of_length_eq_zero (by omega)
      refine ⟨rfl, ?_, fun q hq => get?_emit_of_ne a d _ hq⟩
      rintro more ⟨written, hget, hflushed, rfl⟩
      refine ⟨written ++ bytes, get?_emit hget hflushed _, ?_, ?_⟩
      · rw [List.length_append, ← hflushed]
      · simp [hempty]
    next =>
      refine ⟨rfl, ?_, fun _ _ => rfl⟩
      rintro more ⟨written, hget, hflushed, rfl⟩
      exact ⟨written, hget, hflushed, by simp⟩
  unfold buffer
  by_cases hfull : capacity < appender.pending.length + bytes.length
  · rw [if_pos hfull]
    exact (adds_flush appender disk).trans (hput _ _ (Or.inl rfl))
  · rw [if_neg hfull]
    exact hput _ _ (Or.inr (Nat.le_of_not_lt hfull))

theorem adds_append (row : Row) :
    Adds appender disk (Record.encode row) (appender.append disk row) := by
  have h := adds_buffer appender disk (Record.encode row)
  unfold append
  rcases appender.buffer disk (Record.encode row) with ⟨a, d⟩
  dsimp only
  refine ⟨h.file, fun hbytes => ?_, h.get?_of_ne⟩
  obtain ⟨written, hget, hflushed, hpending⟩ := h.holds hbytes
  exact ⟨written, hget, hflushed, hpending⟩

theorem adds_foldl (rows : List Row) :
    Adds appender disk (rows.flatMap Record.encode)
      (rows.foldl (fun (a, d) row => a.append d row) (appender, disk)) := by
  induction rows generalizing appender disk with
  | nil => exact Adds.refl appender disk
  | cons row rows ih => exact (adds_append appender disk row).trans (ih _ _)

/-- Putting bytes into the buffer is not yet taking in a row. -/
theorem counts_buffer (bytes : Bytes) :
    (appender.buffer disk bytes).1.offset = appender.offset ∧
      (appender.buffer disk bytes).1.rows = appender.rows := by
  unfold buffer
  by_cases hfull : capacity < appender.pending.length + bytes.length
  · rw [if_pos hfull]
    dsimp only
    split
    all_goals exact ⟨rfl, rfl⟩
  · rw [if_neg hfull]
    dsimp only
    split
    all_goals exact ⟨rfl, rfl⟩

theorem offset_append (row : Row) :
    (appender.append disk row).1.offset = appender.offset + (Record.encode row).length :=
  congrArg (· + (Record.encode row).length) (counts_buffer appender disk (Record.encode row)).1

/-- An appender counts the rows that it took. -/
theorem rows_foldl (rows : List Row) :
    (rows.foldl (fun (a, d) row => a.append d row) (appender, disk)).1.rows =
      appender.rows + rows.length := by
  induction rows generalizing appender disk with
  | nil => rfl
  | cons row rows ih =>
    have hrow : (appender.append disk row).1.rows = appender.rows + 1 :=
      congrArg (· + 1) (counts_buffer appender disk (Record.encode row)).2
    have hrest := ih (appender.append disk row).1 (appender.append disk row).2
    rw [hrow, Nat.add_assoc, Nat.add_comm 1] at hrest
    exact hrest

theorem appendAll_eq_foldl (rows : List Row) :
    appender.appendAll disk rows =
      rows.foldl (fun (a, d) row => a.append d row) (appender, disk) := by
  induction rows generalizing appender disk with
  | nil => rfl
  | cons row rows ih => exact ih _ _

variable {appender disk}

/-- The file of an appender that was closed. -/
theorem get?_close {bytes : Bytes} (h : Holds appender disk bytes) :
    (appender.close disk).2.get? appender.file.place =
      some (.file appender.file.number bytes) := by
  obtain ⟨written, hget, hflushed, rfl⟩ := h
  exact get?_emit hget hflushed _

theorem get?_close_of_ne {q : Place} (hq : q ≠ appender.file.place) :
    (appender.close disk).2.get? q = disk.get? q := get?_emit_of_ne appender disk _ hq

/-! ## New files -/

theorem holds_of_opened {path : String} {file : OpenFile} {after : Disk}
    (h : Disk.Opened disk path file after) : Holds ⟨path, file, [], 0, 0, 0⟩ after [] :=
  ⟨[], h.get?_self, rfl, rfl⟩

/-- In a directory that is there nothing has to be made for a file. -/
theorem prepareDirectory_of_leadsTo {dir child : String} {place : Place}
    (h : Disk.LeadsTo disk dir place) (hchild : Path.IsName child)
    (hlast : child.toList.getLast? ≠ some '.') :
    prepareDirectory disk (Path.join dir child) = (.ok (), disk) := by
  obtain ⟨parent, hparent, hexists⟩ := h.exists_parent hchild hlast
  rw [prepareDirectory, hparent]
  simp [hexists]

/-- A file can be made in a directory under a name that no directory has. -/
theorem create_of_leadsTo {dir child : String} {place : Place}
    (h : Disk.LeadsTo disk dir place) (hchild : Path.IsName child)
    (hlast : child.toList.getLast? ≠ some '.')
    (hsize : child.utf8ByteSize ≤ Path.maxNameLength)
    (hcheck : Path.check (Path.join dir child) = .ok ())
    (hfree : disk.get? (place ++ [child]) ≠ some .directory) :
    ∃ file after, RowAppender.create disk (Path.join dir child) =
        (.ok ⟨Path.join dir child, file, [], 0, 0, 0⟩, after) ∧
      file.place = place ++ [child] ∧ Disk.Opened disk (Path.join dir child) file after := by
  obtain ⟨file, after, hcreate, hplace, hafter⟩ := h.exists_create hchild hsize hcheck hfree
  refine ⟨file, after, ?_, hplace, hafter⟩
  rw [create, prepareDirectory_of_leadsTo h hchild hlast]
  simp only [hcreate]

theorem isAlone_rows : Path.IsAlone "t.rows" :=
  ⟨⟨by decide, by decide, by decide, by decide⟩, by decide, by decide, by decide⟩

/-- On an empty disk a file can be made in the directory where a process starts. -/
theorem create_on_empty : create .empty "t.rows" =
    (.ok ⟨"t.rows", ⟨[".", "t.rows"], 0⟩, [], 0, 0, 0⟩, ⟨[([".", "t.rows"], .file 0 [])], 1⟩) := by
  have hprepare : prepareDirectory .empty "t.rows" = (.ok (), .empty) := rfl
  rw [create, hprepare]
  dsimp only
  rw [Disk.create_alone isAlone_rows]
  rfl

/-- An appender that was created writes to a new file at its path. -/
theorem opened_of_create {path : String} {made : Disk}
    (h : create disk path = (.ok appender, made)) :
    ∃ prepared, prepareDirectory disk path = (.ok (), prepared) ∧
      Disk.Opened prepared path appender.file made ∧ Holds appender made [] := by
  rw [create] at h
  split at h
  next => cases h
  next prepared hprepared =>
    split at h
    next => cases h
    next file after hfile =>
      cases h
      have hopened := Disk.opened_of_create hfile
      exact ⟨prepared, hprepared, hopened, holds_of_opened hopened⟩

end BlockQuery.RowAppender

namespace BlockQuery

/-- A new file that took some bytes and was closed holds them, and all other files stay. -/
theorem RowAppender.exists_file_of_close {disk made : Disk} {path : String}
    {appender : RowAppender} (hcreate : create disk path = (.ok appender, made)) {bytes : Bytes}
    {last : RowAppender × Disk} (hadds : Adds appender made bytes last) :
    ∃ (prepared : Disk) (file : OpenFile),
      prepareDirectory disk path = (.ok (), prepared) ∧
      prepared.resolve path = .ok file.place ∧ prepared.get? file.place ≠ some .directory ∧
      (last.1.close last.2).2.get? file.place = some (.file file.number bytes) ∧
      ∀ q, q ≠ file.place → (last.1.close last.2).2.get? q = prepared.get? q := by
  obtain ⟨prepared, hprepared, hopened, hempty⟩ := opened_of_create hcreate
  have hself := get?_close (hadds.holds hempty)
  rw [hadds.file, List.nil_append] at hself
  refine ⟨prepared, appender.file, hprepared, hopened.resolve, hopened.notDirectory, hself, ?_⟩
  intro q hq
  have hne : q ≠ last.1.file.place := by rwa [hadds.file]
  exact (get?_close_of_ne hne).trans ((hadds.get?_of_ne q hq).trans (hopened.get?_of_ne q hq))

/-- The path of a new file leads to it once it was closed. -/
theorem RowAppender.openEntry_close {disk made : Disk} {path : String} {appender : RowAppender}
    (hcreate : create disk path = (.ok appender, made)) {bytes : Bytes}
    {last : RowAppender × Disk} (hadds : Adds appender made bytes last) :
    ∃ number, (last.1.close last.2).2.openEntry path = .ok (.file number bytes) := by
  obtain ⟨prepared, file, -, hresolve, hnot, hself, hothers⟩ := exists_file_of_close hcreate hadds
  have hsame := Disk.sameDirectories_of_ne hnot (fun hd => nomatch hself.symm.trans hd) hothers
  exact ⟨_, Disk.openEntry_eq_ok.mpr ⟨_, (Disk.resolve_congr hsame).mp hresolve, hself⟩⟩

/-- Storing rows is appending them to a new file and closing it. -/
theorem Disk.close_of_storeRows {disk stored : Disk} {path : String} {rows : List Row} {size : ℕ}
    (h : disk.storeRows path rows = (.ok size, stored)) :
    ∃ appender made last, RowAppender.create disk path = (.ok appender, made) ∧
      RowAppender.Adds appender made (rows.flatMap Record.encode) last ∧
      last.1.close last.2 = (size, stored) := by
  rw [storeRows] at h
  split at h
  next => cases h
  next appender made hcreate =>
    cases h
    have hadds := RowAppender.adds_foldl appender made rows
    rw [← RowAppender.appendAll_eq_foldl] at hadds
    exact ⟨appender, made, _, hcreate, hadds, rfl⟩

/-- Storing rows makes a file of their records and leaves all other files. -/
theorem Disk.exists_file_of_storeRows {disk stored : Disk} {path : String} {rows : List Row}
    {size : ℕ} (h : disk.storeRows path rows = (.ok size, stored)) :
    ∃ (prepared : Disk) (file : OpenFile),
      RowAppender.prepareDirectory disk path = (.ok (), prepared) ∧
      prepared.resolve path = .ok file.place ∧ prepared.get? file.place ≠ some .directory ∧
      stored.get? file.place = some (.file file.number (rows.flatMap Record.encode)) ∧
      ∀ q, q ≠ file.place → stored.get? q = prepared.get? q := by
  obtain ⟨appender, made, last, hcreate, hadds, hclose⟩ := close_of_storeRows h
  have hfile := RowAppender.exists_file_of_close hcreate hadds
  rwa [hclose] at hfile

/-- A file of stored rows holds their records. -/
theorem Disk.openEntry_storeRows {disk stored : Disk} {path : String} {rows : List Row} {size : ℕ}
    (h : disk.storeRows path rows = (.ok size, stored)) :
    ∃ number, stored.openEntry path = .ok (.file number (rows.flatMap Record.encode)) := by
  obtain ⟨appender, made, last, hcreate, hadds, hclose⟩ := close_of_storeRows h
  have hentry := RowAppender.openEntry_close hcreate hadds
  rwa [hclose] at hentry

/-- A row file is opened as before if its path leads to the same entry. -/
theorem RowReader.open?_congr {disk other : Disk} {path : String}
    (h : ∀ entry, other.openEntry path = .ok entry ↔ disk.openEntry path = .ok entry)
    {r : RowReader} : RowReader.open? other path = .ok r ↔ RowReader.open? disk path = .ok r := by
  rw [open?, open?]
  cases hdisk : disk.openEntry path with
  | error e =>
    cases hother : other.openEntry path with
    | error e' =>
      constructor
      · intro h
        cases h
      · intro h
        cases h
    | ok entry => cases hdisk.symm.trans ((h entry).mp hother)
  | ok entry => rw [(h entry).mpr hdisk]

theorem RowReader.open?_of_openEntry {disk : Disk} {path : String} {number : ℕ} {content : Bytes}
    (h : disk.openEntry path = .ok (.file number content)) :
    RowReader.open? disk path = .ok (.ofContent path content) := by
  rw [RowReader.open?, h]

theorem RowReader.open?_of_file {disk : Disk} {path : String} {place : Place} {number : ℕ}
    {content : Bytes} (hresolve : disk.resolve path = .ok place)
    (h : disk.get? place = some (.file number content)) :
    RowReader.open? disk path = .ok (.ofContent path content) :=
  open?_of_openEntry (Disk.openEntry_eq_ok.mpr ⟨place, hresolve, h⟩)

end BlockQuery
