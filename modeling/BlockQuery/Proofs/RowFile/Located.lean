import BlockQuery.Proofs.Except
import BlockQuery.Proofs.RowFile.Records
import BlockQuery.Proofs.RowSource.Files

/-!
# Rows with their places

The rows of a file and the offsets of their records.  Whatever some of them are
listed by, the rows are found again at their offsets.
-/

namespace BlockQuery

namespace Record

/-- The rows of a file with the offsets of their records. -/
def located (rows : List Row) : List (Row × ℕ) := rows.zip (offsets 0 rows)

theorem length_offsets (start : ℕ) (rows : List Row) :
    (offsets start rows).length = rows.length := by
  induction rows generalizing start with
  | nil => rfl
  | cons row rows ih => rw [offsets, List.length_cons, List.length_cons, ih]

theorem map_fst_located (rows : List Row) : (located rows).map Prod.fst = rows :=
  List.map_fst_zip (length_offsets 0 rows).ge

theorem mem_of_mem_located {rows : List Row} {x : Row × ℕ} (h : x ∈ located rows) : x.1 ∈ rows :=
  (List.of_mem_zip h).1

/-- Induct on the rows; the records of those before are in front of the start. -/
theorem drop_of_mem_zip {content : Bytes} {rows : List Row} {start : ℕ}
    (hdrop : content.drop start = rows.flatMap encode) (hle : start ≤ content.length)
    {x : Row × ℕ} (h : x ∈ rows.zip (offsets start rows)) :
    ∃ ys, content.drop x.2 = encode x.1 ++ ys ∧ x.2 + (encode x.1).length ≤ content.length := by
  induction rows generalizing start with
  | nil => cases h
  | cons row rows ih =>
    rw [List.flatMap_cons] at hdrop
    have hlength := congrArg List.length hdrop
    rw [List.length_drop, List.length_append] at hlength
    rw [offsets, List.zip_cons_cons] at h
    rcases List.mem_cons.mp h with rfl | h
    · exact ⟨_, hdrop, by dsimp only; omega⟩
    · have hrest : content.drop (start + (encode row).length) = rows.flatMap encode := by
        rw [← List.drop_drop, hdrop, List.drop_left]
      exact ih hrest (by omega) h

theorem drop_of_mem_located {rows : List Row} {x : Row × ℕ} (h : x ∈ located rows) :
    ∃ ys, (rows.flatMap encode).drop x.2 = encode x.1 ++ ys ∧
      x.2 + (encode x.1).length ≤ (rows.flatMap encode).length :=
  drop_of_mem_zip rfl (Nat.zero_le _) h

/-- The key of a row in one column, with the place of the row. -/
def keyAt (position : ℕ) (x : Row × ℕ) : Row × ℕ := (x.1.select [position], x.2)

end Record

/-- A column of a file of records is read with the places of its rows. -/
theorem Disk.readColumn_of_open {disk : Disk} {path : String} {rows : List Row}
    (hfits : ∀ row ∈ rows, row.Fits)
    (h : RowReader.open? disk path = .ok (.ofContent path (rows.flatMap Record.encode)))
    (position : ℕ) :
    disk.readColumn path position = .ok ((Record.located rows).map (Record.keyAt position)) := by
  have hlocated : (RowReader.ofContent path (rows.flatMap Record.encode)).located [] =
      .ok (Record.located rows) :=
    RowReader.located_standing hfits rfl (Nat.zero_le _) []
  rw [readColumn, h]
  change ((RowReader.ofContent path (rows.flatMap Record.encode)).located [] >>= fun rows =>
    pure (rows.map (Record.keyAt position))) = _
  rw [hlocated]
  rfl

/-- A column is read from a file only. -/
theorem Disk.exists_openEntry_of_readColumn {disk : Disk} {path : String} {position : ℕ}
    {entries : List (Row × ℕ)} (h : disk.readColumn path position = .ok entries) :
    ∃ number content, disk.openEntry path = .ok (.file number content) := by
  obtain ⟨r, hopen, h⟩ := Except.bind_eq_ok.mp h
  rw [RowReader.open?] at hopen
  split at hopen
  · cases hopen
  next number content hentry => exact ⟨number, content, hentry⟩
  next hentry =>
    cases hopen
    obtain ⟨rows, hrows, -⟩ := Except.bind_eq_ok.mp h
    rw [RowReader.located_of_error rfl] at hrows
    cases hrows

/-- The keys of a column have one value, whatever is in the file. -/
theorem Disk.length_of_readColumn {disk : Disk} {path : String} {position : ℕ}
    {entries : List (Row × ℕ)} (h : disk.readColumn path position = .ok entries) :
    ∀ e ∈ entries, e.1.length = 1 := by
  obtain ⟨r, -, h⟩ := Except.bind_eq_ok.mp h
  obtain ⟨rows, -, h⟩ := Except.bind_eq_ok.mp h
  cases h
  intro e he
  obtain ⟨x, -, rfl⟩ := List.mem_map.mp he
  exact Row.length_select x.1 [position]

/-- A file of records holds the rows. -/
theorem Disk.rows?_of_open {disk : Disk} {path : String} {rows : List Row}
    (hfits : ∀ row ∈ rows, row.Fits)
    (h : RowReader.open? disk path = .ok (.ofContent path (rows.flatMap Record.encode))) :
    disk.rows? path = some rows := by
  rw [Disk.rows?, Disk.reader?, h]
  have hall : ((RowReader.standing path (rows.flatMap Record.encode) 0).readAll []).1 = .ok rows :=
    RowReader.readAll_standing hfits rfl (Nat.zero_le _) []
  exact congrArg Except.toOption hall

/-- The rows of some records are found at their offsets, in any order. -/
theorem RowSource.rowsAt?_of_located {path : String} {rows : List Row} {found : List (Row × ℕ)}
    (hfits : ∀ row ∈ rows, row.Fits)
    (hmax : (rows.flatMap Record.encode).length ≤ RowReader.maxPosition)
    (hfound : ∀ x ∈ found, x ∈ Record.located rows) {r : RowReader}
    (hr : r.Reads path (rows.flatMap Record.encode)) :
    rowsAt? r (found.map Prod.snd) = some (found.map Prod.fst) := by
  induction found generalizing r with
  | nil => rfl
  | cons x found ih =>
    obtain ⟨hx, hfound⟩ := List.forall_mem_cons.mp hfound
    obtain ⟨ys, hdrop, hlength⟩ := Record.drop_of_mem_located hx
    have hrow : x.1.Fits := hfits x.1 (Record.mem_of_mem_located hx)
    have hread := RowReader.readAt_of_reads hr hrow hdrop (by omega) (by omega)
    rw [List.map_cons, rowsAt?, hread]
    dsimp only
    rw [ih hfound (RowReader.reads_standing _ _ _)]
    rfl

end BlockQuery
