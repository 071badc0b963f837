import BlockQuery.Proofs.Row.Prefix
import BlockQuery.Proofs.RowFile.Straying

/-!
# Rows stored in a file

The rows that a file gives to a reader that goes on asking, also behind errors.
What a column index lists of a file are such rows, and each one is read again
at its offset.
-/

namespace BlockQuery

/-- A row that is decoded from a record has a record. -/
theorem Record.fits_of_decode {data : Bytes} {row : Row} {used : ℕ}
    (h : decode data = .ok (row, used)) : row.Fits := by
  have hdecoded := decode_eq_ok_iff.mp h
  obtain ⟨hlength, hencoded⟩ := Row.encodedLength_of_decode hdecoded.row_eq
  have hmin := hdecoded.min_le
  rw [minLength] at hmin
  have hused : used < 2 ^ 32 := by
    rw [← hdecoded.length_eq]
    calc Bytes.toNat (data.take 4)
      _ < 256 ^ (data.take 4).length := Bytes.toNat_lt _
      _ ≤ 256 ^ 4 := Nat.pow_le_pow_right (by decide) (List.length_take_le _ _)
      _ = 2 ^ 32 := by decide
  exact ⟨hlength, by omega⟩

/-! ## Reading on -/

/-- Whether the file that a path names gives a row to a reader that goes on asking. -/
def Disk.Stores (disk : Disk) (path : String) (row : Row) : Prop :=
  ∃ r n, RowReader.open? disk path = .ok r ∧ Except.ok (some row) ∈ (r.nexts n).1

namespace RowReader

variable {path : String} {content : Bytes} {offset : ℕ} {row : Row} {r s t : RowReader}

theorem nexts_succ (n : ℕ) (r : RowReader) : r.nexts (n + 1) =
    ((r.nexts n).1 ++ [(r.nexts n).2.next.1], (r.nexts n).2.next.2) := by
  induction n generalizing r with
  | zero => rfl
  | succ n ih =>
    rw [nexts, ih, nexts]
    rfl

/-- The row that comes after so many calls is one of the rows of the file. -/
theorem stores_of_next {disk : Disk} (hopen : open? disk path = .ok r) {n : ℕ}
    (hnext : (r.nexts n).2.next = (.ok (some row), t)) : disk.Stores path row := by
  refine ⟨r, n + 1, hopen, ?_⟩
  rw [nexts_succ, hnext]
  exact List.mem_append_right _ (List.mem_singleton_self _)

/-- A file of records stores their rows only. -/
theorem mem_of_mem_nexts {rows : List Row} (hfits : ∀ row ∈ rows, row.Fits)
    (h : content.drop offset = rows.flatMap Record.encode) (hle : offset ≤ content.length) {n : ℕ}
    (hmem : Except.ok (some row) ∈ ((standing path content offset).nexts n).1) : row ∈ rows := by
  induction n generalizing rows offset with
  | zero => cases hmem
  | succ n ih =>
    rw [nexts] at hmem
    cases rows with
    | nil =>
      rw [next_standing_end (List.drop_eq_nil_iff.mp h)] at hmem
      rcases List.mem_cons.mp hmem with hhead | hrest
      · cases hhead
      · exact ih hfits h hle hrest
    | cons first rows =>
      obtain ⟨hfirst, hrows⟩ := List.forall_mem_cons.mp hfits
      obtain ⟨hnext, hdrop, hle'⟩ :=
        next_standing_cons hfirst (h.trans (List.append_nil _).symm) hle path
      rw [List.append_nil] at hdrop
      rw [hnext] at hmem
      rcases List.mem_cons.mp hmem with hhead | hrest
      · cases hhead
        exact List.mem_cons_self
      · exact List.mem_cons_of_mem first (ih hrows hdrop hle' hrest)

end RowReader

theorem Disk.mem_of_stores {disk : Disk} {path : String} {rows : List Row} {row : Row}
    (hfits : ∀ row ∈ rows, row.Fits)
    (hopen : RowReader.open? disk path = .ok (.ofContent path (rows.flatMap Record.encode)))
    (h : disk.Stores path row) : row ∈ rows := by
  obtain ⟨r, n, hr, hmem⟩ := h
  rw [hopen] at hr
  cases hr
  exact RowReader.mem_of_mem_nexts hfits rfl (Nat.zero_le _) hmem

/-! ## Rows at their offsets -/

namespace RowReader

variable {path : String} {content : Bytes} {offset : ℕ} {row : Row} {r s t : RowReader}

/-- After a row a reader stands in front of what comes next. -/
theorem next_standing_of_ok (h : (standing path content offset).next = (.ok (some row), t)) :
    offset < content.length ∧ row.Fits ∧ ∃ n, t = standing path content n := by
  obtain ⟨used, hdecode, hafter⟩ := (tracked_standing path content offset).exists_used h
  have hdecoded := Record.decode_eq_ok_iff.mp hdecode
  have hmin := hdecoded.min_le
  have hle := hdecoded.le_length
  rw [Record.minLength] at hmin
  rw [List.length_drop] at hle
  refine ⟨?_, Record.fits_of_decode hdecode, _, hafter⟩
  change used ≤ content.length - offset at hle
  omega

/-- A row with a place where a reader that reads on stands in front of it. -/
def Meets (r : RowReader) (path : String) (content : Bytes) (x : Row × ℕ) : Prop :=
  ∃ n t, (r.nexts n).2 = standing path content x.2 ∧
    (standing path content x.2).next = (.ok (some x.1), t)

/-- All rows that are listed with their places are met there. -/
theorem meets_of_located {n : ℕ} (hr : (r.nexts n).2 = s)
    (hs : s = standing path content s.offset) {done found : List (Row × ℕ)}
    (h : s.located done = .ok found) (hdone : ∀ x ∈ done, r.Meets path content x) :
    ∀ x ∈ found, r.Meets path content x := by
  fun_induction located s done generalizing n with
  | case1 => cases h
  | case2 =>
    cases h
    exact fun x hx => hdone x (List.mem_reverse.mp hx)
  | case3 s done row t hnext ih =>
    have hnext' := hnext
    rw [hs] at hnext'
    obtain ⟨-, -, m, rfl⟩ := next_standing_of_ok hnext'
    apply ih (n := n + 1) _ rfl h
    · exact List.forall_mem_cons.mpr ⟨⟨n, _, hr.trans hs, hnext'⟩, hdone⟩
    · rw [nexts_succ, hr, hnext]

theorem readAt_of_next (hr : r.Reads path content) (hmax : offset ≤ maxPosition)
    (h : (standing path content offset).next = (.ok (some row), t)) :
    r.readAt offset = (.ok row, t) := by
  rw [readAt, seek_of_reads hr hmax]
  simp only [h]

end RowReader

/-- The entries of a column are those of stored rows, each with the place where its row is read. -/
theorem Disk.stores_of_readColumn {disk : Disk} {path : String} {content : Bytes} {position : ℕ}
    {entries : List (Row × ℕ)} (hopen : RowReader.open? disk path = .ok (.ofContent path content))
    (h : disk.readColumn path position = .ok entries) :
    ∀ e ∈ entries, e.2 < content.length ∧ e.1.Storable ∧ ∃ row t,
      (RowReader.standing path content e.2).next = (.ok (some row), t) ∧ disk.Stores path row := by
  obtain ⟨r, hr, h⟩ := Except.bind_eq_ok.mp h
  rw [hopen] at hr
  cases hr
  obtain ⟨found, hfound, h⟩ := Except.bind_eq_ok.mp h
  cases h
  intro e he
  obtain ⟨x, hx, rfl⟩ := List.mem_map.mp he
  obtain ⟨n, t, hn, hnext⟩ := RowReader.meets_of_located (n := 0) rfl rfl hfound
    (fun _ hx => absurd hx List.not_mem_nil) x hx
  obtain ⟨hlt, hfits, -⟩ := RowReader.next_standing_of_ok hnext
  have hkey : ∀ d ∈ x.1.select [position], d.Storable := by
    intro d hd
    rw [Row.select, List.map_singleton, List.mem_singleton] at hd
    rw [hd]
    cases hvalue : x.1[position]? with
    | none => trivial
    | some value => exact hfits.storable.2 value (List.mem_of_getElem? hvalue)
  refine ⟨hlt, ⟨?_, hkey⟩, x.1, t, hnext, ?_⟩
  · exact (Row.length_select x.1 [position]).trans_lt (show 1 < 2 ^ 16 by decide)
  · rw [← hn] at hnext
    exact RowReader.stores_of_next hopen hnext

end BlockQuery
