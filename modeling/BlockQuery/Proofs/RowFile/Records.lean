import BlockQuery.Proofs.Row.Codec
import BlockQuery.RowFile.Reader

/-!
# Reading back records

A file of records is read back row by row, from its start or from the start of
any of its records.
-/

namespace BlockQuery

/-- Whether a row has a record: its values can be counted and its length stored. -/
structure Row.Fits (row : Row) : Prop where
  length_lt : row.length < 2 ^ 16
  record_lt : row.encodedLength + 8 < 2 ^ 32

namespace Row

theorem encodedLength_le_of_mem {row : Row} {d : Datum} (h : d ∈ row) :
    d.encodedLength ≤ row.encodedLength := by
  induction row with
  | nil => cases h
  | cons e row ih =>
    rw [encodedLength_cons]
    rcases List.mem_cons.mp h with rfl | hd
    · omega
    · have := ih hd
      omega

theorem Fits.storable {row : Row} (h : row.Fits) : row.Storable := by
  refine ⟨h.length_lt, ?_⟩
  intro d hd
  have hle := encodedLength_le_of_mem hd
  have hlt := h.record_lt
  cases d with
  | text s =>
    rw [Datum.encodedLength] at hle
    change (Bytes.ofText s).length < 2 ^ 32
    omega
  | _ => trivial

end Row

namespace Record

theorem length_encode (row : Row) : (encode row).length = row.encodedLength + 8 := by
  simp only [encode, Bytes.ofUInt32, List.length_append, Bytes.length_ofNat, Row.length_encode]
  omega

theorem minLength_le_length_encode (row : Row) : minLength ≤ (encode row).length := by
  have := Row.two_le_encodedLength row
  rw [length_encode, minLength]
  omega

theorem take_four_encode (row : Row) :
    (encode row).take 4 = Bytes.ofNat 4 (encode row).length := by
  have hlen : 4 + row.encodedLength + 4 = (encode row).length := by
    rw [length_encode]
    omega
  rw [← hlen, encode, List.append_assoc]
  exact List.take_left' (Bytes.length_ofNat 4 _)

/-- A record gives back its row, if there was room for the row in it. -/
theorem decode_encode {row : Row} (h : row.Fits) :
    decode (encode row) = .ok (row, (encode row).length) := by
  have hlen : (encode row).length = row.encodedLength + 8 := length_encode row
  have hmin := minLength_le_length_encode row
  have hfield : Bytes.toNat ((encode row).take 4) = (encode row).length := by
    rw [take_four_encode]
    exact Bytes.toNat_ofNat_of_lt (hlen ▸ h.record_lt)
  obtain ⟨body, hbody⟩ : ∃ body : Bytes, body = Bytes.ofNat 4 (4 + row.encodedLength + 4) ++
    row.encode := ⟨_, rfl⟩
  have hencode : encode row = body ++ Bytes.ofUInt32 (checksum body) := by
    rw [hbody]
    rfl
  have hlength : body.length = (encode row).length - 4 := by
    rw [hlen, hbody, List.length_append, Bytes.length_ofNat, Row.length_encode]
    omega
  have htake : (encode row).take ((encode row).length - 4) = body := by
    rw [← hlength, hencode]
    exact List.take_left
  have hdrop : (encode row).drop ((encode row).length - 4) = Bytes.ofUInt32 (checksum body) := by
    rw [← hlength, hencode]
    exact List.drop_left
  have hstored : Bytes.toNat (List.take 4 (Bytes.ofUInt32 (checksum body))) =
      (checksum body).toNat := by
    have hsum : (checksum body).toNat < 256 ^ 4 := (checksum body).toNat_lt
    rw [List.take_of_length_le (by simp [Bytes.ofUInt32]), Bytes.ofUInt32]
    exact Bytes.toNat_ofNat_of_lt hsum
  have hrow : Row.decode (body.drop 4) = .ok (row, row.encodedLength) := by
    rw [hbody, List.drop_left' (Bytes.length_ofNat 4 _)]
    have := Row.decode_encode_append h.storable []
    rwa [List.append_nil] at this
  have hused : row.encodedLength = (encode row).length - 8 := by omega
  rw [decode]
  simp only [hfield, htake, hdrop, hstored, hrow, if_neg (Nat.not_lt.mpr hmin), lt_irrefl,
    ne_eq, not_true_eq_false, if_false, ← hused]

end Record

/-! ## Readers that stand in a file -/

/-- Where the records of rows start, if the first one starts at an offset. -/
def Record.offsets (start : ℕ) : List Row → List ℕ
  | [] => []
  | row :: rows => start :: offsets (start + (encode row).length) rows

namespace RowReader

/-- A reader of a file with a stream somewhere in it. -/
def streaming (path : String) (content : Bytes) (offset stream : ℕ) : RowReader :=
  ⟨path, .ok content, content.length, offset, stream, content.drop stream⟩

/-- A reader of a file whose stream stands where the next record is expected. -/
def standing (path : String) (content : Bytes) (offset : ℕ) : RowReader :=
  streaming path content offset offset

@[simp] theorem size_standing (path : String) (content : Bytes) (offset : ℕ) :
    (standing path content offset).size = content.length := rfl

@[simp] theorem offset_standing (path : String) (content : Bytes) (offset : ℕ) :
    (standing path content offset).offset = offset := rfl

theorem ofContent_eq_standing (path : String) (content : Bytes) :
    ofContent path content = standing path content 0 := rfl

variable {path : String} {content : Bytes} {offset : ℕ}

theorem take_streaming {stream : ℕ} {xs ys : Bytes} (h : content.drop stream = xs ++ ys)
    (hle : stream ≤ content.length) :
    (streaming path content offset stream).take xs.length =
      (.ok xs, streaming path content offset (stream + xs.length)) := by
  have hlen := congrArg List.length h
  rw [List.length_drop, List.length_append] at hlen
  have hsize : ¬ content.length < stream + xs.length := by omega
  have hdrop : content.drop (stream + xs.length) = ys := by
    rw [← List.drop_drop, h, List.drop_left]
  simp only [take, streaming, if_neg hsize, h, hdrop, List.take_left, List.drop_left]

theorem next_standing_end (h : content.length ≤ offset) :
    (standing path content offset).next = (.ok none, standing path content offset) := by
  rw [next]
  exact if_pos h

/-- In front of a record a reader gives its row and moves behind it. -/
theorem next_standing {row : Row} (hfits : row.Fits) {ys : Bytes}
    (h : content.drop offset = Record.encode row ++ ys) (hle : offset ≤ content.length) :
    (standing path content offset).next =
      (.ok (some row), standing path content (offset + (Record.encode row).length)) := by
  have hlen := congrArg List.length h
  rw [List.length_drop, List.length_append] at hlen
  have hmin := Record.minLength_le_length_encode row
  have hfour : 4 ≤ (Record.encode row).length := le_trans (by decide) hmin
  obtain ⟨field, body, hsplit, hfield⟩ : ∃ field body : Bytes,
      Record.encode row = field ++ body ∧ field.length = 4 :=
    ⟨_, _, (List.take_append_drop 4 _).symm, List.length_take_of_le hfour⟩
  have hnat : Bytes.toNat field = (Record.encode row).length := by
    have htake := Record.take_four_encode row
    rw [hsplit, List.take_left' hfield, ← hsplit] at htake
    rw [htake]
    exact Bytes.toNat_ofNat_of_lt (Record.length_encode row ▸ hfits.record_lt)
  have hbody : body.length = (Record.encode row).length - 4 := by
    rw [hsplit, List.length_append]
    omega
  have htake₁ : (standing path content offset).take 4 =
      (.ok field, streaming path content offset (offset + 4)) := by
    rw [hsplit, List.append_assoc] at h
    rw [← hfield]
    exact take_streaming h hle
  have hdrop : content.drop (offset + 4) = body ++ ys := by
    rw [← List.drop_drop, h, hsplit, List.append_assoc, List.drop_left' hfield]
  have hend : offset + 4 + body.length = offset + (Record.encode row).length := by omega
  have htake₂ : (streaming path content offset (offset + 4)).take
      ((Record.encode row).length - 4) =
        (.ok body, streaming path content offset (offset + (Record.encode row).length)) := by
    rw [← hbody, ← hend]
    exact take_streaming hdrop (by omega)
  have hsize : ¬ content.length ≤ offset := by omega
  have hremaining : ¬ content.length - offset < Record.minLength := by omega
  have hlength : ¬ ((Record.encode row).length < Record.minLength ∨
      content.length - offset < (Record.encode row).length) := by omega
  have hdecode : Record.decode (field ++ body) = .ok (row, (Record.encode row).length) := by
    rw [← hsplit]
    exact Record.decode_encode hfits
  have hreadBody : (streaming path content offset (offset + 4)).readBody field
      (Record.encode row).length =
        (.ok (some row), standing path content (offset + (Record.encode row).length)) := by
    simp only [readBody, htake₂, hdecode]
    rfl
  rw [next, size_standing, offset_standing, if_neg hsize]
  dsimp only
  rw [if_neg hremaining, htake₁]
  dsimp only
  rw [hnat]
  simpa [hlength] using hreadBody

/-- In front of records a reader gives the first row and moves in front of the others. -/
theorem next_standing_cons {row : Row} {rows : List Row} {tail : Bytes} (hfits : row.Fits)
    (h : content.drop offset = (row :: rows).flatMap Record.encode ++ tail)
    (hle : offset ≤ content.length) (path : String) :
    (standing path content offset).next =
        (.ok (some row), standing path content (offset + (Record.encode row).length)) ∧
      content.drop (offset + (Record.encode row).length) = rows.flatMap Record.encode ++ tail ∧
      offset + (Record.encode row).length ≤ content.length := by
  rw [List.flatMap_cons, List.append_assoc] at h
  have hlength := congrArg List.length h
  rw [List.length_drop, List.length_append] at hlength
  refine ⟨next_standing hfits h hle, ?_, by omega⟩
  rw [← List.drop_drop, h, List.drop_left]

/-! ## All rows -/

/-- Induction on what is left of a file, as reading all rows goes on. -/
theorem next_induction {motive : RowReader → Prop}
    (error : ∀ r e s, r.next = (.error e, s) → motive r)
    (finished : ∀ r s, r.next = (.ok none, s) → motive r)
    (row : ∀ r row s, r.next = (.ok (some row), s) → motive s → motive r)
    (r : RowReader) : motive r := by
  induction hleft : r.left using Nat.strong_induction_on generalizing r with
  | _ left ih =>
    rcases hnext : r.next with ⟨e | _ | found, s⟩
    · exact error r e s hnext
    · exact finished r s hnext
    · exact row r found s hnext (ih _ (hleft ▸ left_lt_of_next hnext) s rfl)

theorem readAll_of_end {r s : RowReader} (h : r.next = (.ok none, s)) (done : List Row) :
    r.readAll done = (.ok done.reverse, s) := by
  rw [readAll]
  split <;> simp_all

theorem readAll_of_error {r s : RowReader} {e : StorageError} (h : r.next = (.error e, s))
    (done : List Row) : r.readAll done = (.error e, s) := by
  rw [readAll]
  split <;> simp_all

theorem readAll_of_row {r s : RowReader} {row : Row} (h : r.next = (.ok (some row), s))
    (done : List Row) : r.readAll done = s.readAll (row :: done) := by
  rw [readAll]
  split <;> simp_all

theorem located_of_end {r s : RowReader} (h : r.next = (.ok none, s)) (done : List (Row × ℕ)) :
    r.located done = .ok done.reverse := by
  rw [located]
  split <;> simp_all

theorem located_of_error {r s : RowReader} {e : StorageError} (h : r.next = (.error e, s))
    (done : List (Row × ℕ)) : r.located done = .error e := by
  rw [located]
  split <;> simp_all

theorem located_of_row {r s : RowReader} {row : Row} (h : r.next = (.ok (some row), s))
    (done : List (Row × ℕ)) : r.located done = s.located ((row, r.offset) :: done) := by
  rw [located]
  split <;> simp_all

/-- Rows that follow are read in front of all that comes behind them. -/
theorem readAll_standing_append {rows : List Row} (hfits : ∀ row ∈ rows, row.Fits) {tail : Bytes}
    (h : content.drop offset = rows.flatMap Record.encode ++ tail) (hle : offset ≤ content.length)
    (done : List Row) : (standing path content offset).readAll done =
      (standing path content (offset + (rows.flatMap Record.encode).length)).readAll
        (rows.reverse ++ done) := by
  induction rows generalizing offset done with
  | nil => rfl
  | cons row rows ih =>
    obtain ⟨hrow, hrows⟩ := List.forall_mem_cons.mp hfits
    obtain ⟨hnext, hdrop, hle'⟩ := next_standing_cons hrow h hle path
    rw [readAll_of_row hnext, ih hrows hdrop hle', List.flatMap_cons, List.length_append,
      Nat.add_assoc, List.reverse_cons, List.append_assoc, List.singleton_append]

/-- A reader in front of records alone gives their rows. -/
theorem readAll_standing {rows : List Row} (hfits : ∀ row ∈ rows, row.Fits)
    (h : content.drop offset = rows.flatMap Record.encode) (hle : offset ≤ content.length)
    (done : List Row) :
    ((standing path content offset).readAll done).1 = .ok (done.reverse ++ rows) := by
  have hlength := congrArg List.length h
  rw [List.length_drop] at hlength
  have hend : content.length ≤ offset + (rows.flatMap Record.encode).length := by omega
  rw [readAll_standing_append hfits (h.trans (List.append_nil _).symm) hle,
    readAll_of_end (next_standing_end hend), List.reverse_append, List.reverse_reverse]

theorem located_standing {rows : List Row} (hfits : ∀ row ∈ rows, row.Fits)
    (h : content.drop offset = rows.flatMap Record.encode) (hle : offset ≤ content.length)
    (done : List (Row × ℕ)) :
    (standing path content offset).located done =
      .ok (done.reverse ++ rows.zip (Record.offsets offset rows)) := by
  induction rows generalizing offset done with
  | nil =>
    have hend : content.length ≤ offset := List.drop_eq_nil_iff.mp h
    rw [located_of_end (next_standing_end hend), List.zip_nil_left, List.append_nil]
  | cons row rows ih =>
    obtain ⟨hrow, hrows⟩ := List.forall_mem_cons.mp hfits
    obtain ⟨hnext, hdrop, hle'⟩ :=
      next_standing_cons hrow (h.trans (List.append_nil _).symm) hle path
    rw [List.append_nil] at hdrop
    rw [located_of_row hnext, ih hrows hdrop hle']
    simp [Record.offsets]

/-! ## Single rows -/

/-- Whether a reader is one of a file with the given content, wherever it stands. -/
structure Reads (r : RowReader) (path : String) (content : Bytes) : Prop where
  path : r.path = path
  source : r.source = .ok content
  size : r.size = content.length

theorem reads_standing (path : String) (content : Bytes) (offset : ℕ) :
    (standing path content offset).Reads path content := ⟨rfl, rfl, rfl⟩

theorem seek_of_reads {r : RowReader} (h : r.Reads path content) (hmax : offset ≤ maxPosition) :
    r.seek offset = .ok (standing path content offset) := by
  obtain ⟨p, source, size, o, s, rest⟩ := r
  obtain ⟨rfl, rfl, rfl⟩ := h
  rw [seek, if_neg (Nat.not_lt.mpr hmax)]
  rfl

/-- The row of a record is found at the record's offset. -/
theorem readAt_of_reads {r : RowReader} (hr : r.Reads path content) {row : Row} (hfits : row.Fits)
    {ys : Bytes} (h : content.drop offset = Record.encode row ++ ys) (hle : offset ≤ content.length)
    (hmax : offset ≤ maxPosition) :
    r.readAt offset = (.ok row, standing path content (offset + (Record.encode row).length)) := by
  rw [readAt, seek_of_reads hr hmax]
  simp only [next_standing hfits h hle]

end RowReader

/-- The rows of a file of records are read back. -/
theorem Disk.readRows_of_open {disk : Disk} {path : String} {rows : List Row}
    (hfits : ∀ row ∈ rows, row.Fits)
    (h : RowReader.open? disk path = .ok (.ofContent path (rows.flatMap Record.encode))) :
    disk.readRows path = .ok rows := by
  rw [readRows, h]
  exact RowReader.readAll_standing hfits rfl (Nat.zero_le _) []

end BlockQuery
