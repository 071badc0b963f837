import BlockQuery.Proofs.Checksum
import BlockQuery.Proofs.Row.Prefix
import BlockQuery.Proofs.RowFile.Append
import BlockQuery.Proofs.RowFile.Located

/-!
# Damaged records

Of two byte strings that differ in one byte of their first record only one can
be decoded: elsewhere than in the length the checksum tells, and with another
length the row does not end where the record does.  A reader of a damaged file
gives the rows before the damage, and then an error at the damaged record.
-/

namespace BlockQuery

namespace Record

/-! ## Decoding -/

/-- What decoding a record has found, and how much it took. -/
structure Decoded (data : Bytes) (row : Row) (used : ℕ) : Prop where
  length_eq : Bytes.toNat (data.take 4) = used
  min_le : minLength ≤ used
  le_length : used ≤ data.length
  checksummed : Checksummed data (used - 4)
  row_eq : Row.decode ((data.drop 4).take (used - 8)) = .ok (row, used - 8)

theorem decode_eq_ok_iff {data : Bytes} {row : Row} {used : ℕ} :
    decode data = .ok (row, used) ↔ Decoded data row used := by
  have hbody : ∀ n, (data.take (n - 4)).drop 4 = (data.drop 4).take (n - 8) := by
    intro n
    rw [List.drop_take]
    congr 1
  constructor
  · intro h
    unfold decode at h
    simp only at h
    split at h
    · cases h
    · split at h
      · cases h
      next hmin =>
        split at h
        · cases h
        next hsize =>
          split at h
          · cases h
          next hsum =>
            split at h
            · cases h
            next found taken hrow =>
              split at h
              · cases h
              next htaken =>
                cases h
                rw [ne_eq, not_not] at hsum htaken
                rw [hbody, htaken] at hrow
                exact ⟨rfl, Nat.le_of_not_lt hmin, Nat.le_of_not_lt hsize, hsum, hrow⟩
  · intro h
    obtain ⟨rfl, hmin, hsize, hsum, hrow⟩ := h
    rw [Checksummed] at hsum
    rw [decode, if_neg (Nat.not_lt.mpr (hmin.trans hsize))]
    dsimp only
    rw [if_neg (Nat.not_lt.mpr hmin), if_neg (Nat.not_lt.mpr hsize),
      if_neg (not_not_intro hsum), hbody, hrow]
    dsimp only
    rw [if_neg (not_not_intro rfl)]

namespace Decoded

variable {data : Bytes} {row : Row} {used : ℕ}

theorem append (h : Decoded data row used) (more : Bytes) : Decoded (data ++ more) row used := by
  have hmin := h.min_le
  have hsize := h.le_length
  rw [minLength] at hmin
  have htake : ∀ n ≤ used, (data ++ more).take n = data.take n := by
    intro n hn
    exact List.take_append_of_le_length (hn.trans hsize)
  have hdrop : ∀ n m, n + m ≤ used → ((data ++ more).drop n).take m = (data.drop n).take m := by
    intro n m hn
    rw [List.drop_append_of_le_length (by omega), List.take_append_of_le_length]
    rw [List.length_drop]
    omega
  refine ⟨?_, h.min_le, ?_, ?_, ?_⟩
  · rw [htake 4 (by omega)]
    exact h.length_eq
  · rw [List.length_append]
    omega
  · rw [Checksummed, htake _ (Nat.sub_le _ _), hdrop _ 4 (by omega)]
    exact h.checksummed
  · rw [hdrop 4 _ (by omega)]
    exact h.row_eq

theorem of_take {n : ℕ} (h : Decoded (data.take n) row used) : Decoded data row used := by
  have happend := h.append (data.drop n)
  rwa [List.take_append_drop] at happend

/-- Rows that are decoded from the same bytes end at the same place. -/
theorem used_eq {other : Bytes} {row' : Row} {used' : ℕ} (h : Decoded data row used)
    (h' : Decoded other row' used') (hsame : data.drop 4 = other.drop 4) : used = used' := by
  have hle : ∀ {data other : Bytes} {row row' : Row} {used used' : ℕ}, Decoded data row used →
      Decoded other row' used' → data.drop 4 = other.drop 4 → used ≤ used' → used = used' := by
    intro data other row row' used used' h h' hsame hle
    have hmin := h.min_le
    obtain ⟨more, hmore⟩ : (data.drop 4).take (used - 8) <+: (other.drop 4).take (used' - 8) := by
      rw [hsame]
      exact List.take_prefix_take_left (by omega)
    have hrow := (Row.decode_append h.row_eq more).1
    rw [hmore, h'.row_eq] at hrow
    have hused : used' - 8 = used - 8 := congrArg Prod.snd (Except.ok.inj hrow)
    rw [minLength] at hmin
    omega
  rcases Nat.le_total used used' with hused | hused
  · exact hle h h' hsame hused
  · exact (hle h' h hsame.symm hused).symm

/-- Of two byte strings that differ in one byte of a record only one can be decoded. -/
theorem byte_eq {xs ys : Bytes} {b c : UInt8} {row' : Row} {used' : ℕ}
    (h : Decoded (xs ++ b :: ys) row used) (h' : Decoded (xs ++ c :: ys) row' used')
    (hlt : xs.length < used) : b = c := by
  have hmin := h.min_le
  rw [minLength] at hmin
  by_cases hfield : xs.length < 4
  · -- Behind the length the bytes are the same, so that the row ends at one place.
    have hsame : (xs ++ b :: ys).drop 4 = (xs ++ c :: ys).drop 4 := by
      rw [drop_byte hfield, drop_byte hfield]
    apply Bytes.byte_eq_of_toNat_take hfield
    rw [h.length_eq, h'.length_eq]
    exact h.used_eq h' hsame
  · have hlength : ∀ zs : Bytes, (xs ++ zs).take 4 = xs.take 4 :=
      fun zs => List.take_append_of_le_length (Nat.le_of_not_lt hfield)
    obtain rfl : used = used' := by
      rw [← h.length_eq, ← h'.length_eq, hlength, hlength]
    exact h.checksummed.byte_eq h'.checksummed (by omega)

end Decoded

/-- A record of which one byte was changed cannot be decoded, whatever follows it. -/
theorem exists_decode_error_of_set {row : Row} (hfits : row.Fits) {k : ℕ} {b : UInt8}
    (hk : k < (encode row).length) (hne : (encode row)[k]? ≠ some b) (more : Bytes) :
    ∃ e, decode ((encode row).set k b ++ more) = .error e := by
  obtain ⟨xs, ys, c, hencode, hset, rfl, hbyte⟩ := Bytes.set_eq_byte hk hne
  cases hdecode : decode ((encode row).set xs.length b ++ more) with
  | error e => exact ⟨e, rfl⟩
  | ok found =>
    have hwhole := (decode_eq_ok_iff.mp (decode_encode hfits)).append more
    have hdamaged := decode_eq_ok_iff.mp hdecode
    rw [hencode, List.append_assoc, List.cons_append] at hwhole
    rw [hset, List.append_assoc, List.cons_append] at hdamaged
    exact absurd (hwhole.byte_eq hdamaged (hencode ▸ hk)) hbyte

end Record

/-! ## Reading damaged files -/

namespace RowReader

variable {path : String} {content : Bytes} {offset : ℕ}

/-- What a reader gives when it is asked for rows so many times. -/
def nexts : ℕ → RowReader → List (Except StorageError (Option Row)) × RowReader
  | 0, r => ([], r)
  | n + 1, r => ((r.next).1 :: (nexts n (r.next).2).1, (nexts n (r.next).2).2)

theorem take_streaming_of_le (path : String) (offset : ℕ) {stream n : ℕ}
    (hle : stream + n ≤ content.length) : (streaming path content offset stream).take n =
      (.ok ((content.drop stream).take n), streaming path content offset (stream + n)) := by
  have hlength : ((content.drop stream).take n).length = n := by
    rw [List.length_take, List.length_drop]
    omega
  have htake : ∀ xs, xs.length = n → content.drop stream = xs ++ (content.drop stream).drop n →
      (streaming path content offset stream).take n =
        (.ok xs, streaming path content offset (stream + n)) := by
    rintro xs rfl h
    exact take_streaming h (by omega)
  exact htake _ hlength (List.take_append_drop n (content.drop stream)).symm

/-- In front of something that is no record a reader reports the place. -/
theorem next_standing_of_error (path : String) {e : RecordError}
    (h : Record.decode (content.drop offset) = .error e) (hlt : offset < content.length) :
    ∃ damage s,
      (standing path content offset).next = (.error (.corruption offset damage), s) := by
  rw [next, size_standing, offset_standing, if_neg (Nat.not_le.mpr hlt)]
  dsimp only
  split
  next => exact ⟨_, _, rfl⟩
  next hremaining =>
    rw [Record.minLength] at hremaining
    have hfield := take_streaming_of_le path offset (show offset + 4 ≤ content.length by omega)
    rw [standing, hfield]
    dsimp only
    split
    next => exact ⟨_, _, rfl⟩
    next hlength =>
      obtain ⟨length, hnat⟩ : ∃ length, length = Bytes.toNat ((content.drop offset).take 4) :=
        ⟨_, rfl⟩
      rw [← hnat] at hlength ⊢
      obtain ⟨hmin, hroom⟩ : 10 ≤ length ∧ length ≤ content.length - offset := by
        rw [Bool.or_eq_true, decide_eq_true_eq, decide_eq_true_eq, not_or, not_lt, not_lt] at hlength
        exact hlength
      have hbody := take_streaming_of_le path offset
        (show offset + 4 + (length - 4) ≤ content.length by omega)
      rw [← List.drop_drop] at hbody
      have hrecord : (content.drop offset).take 4 ++
          ((content.drop offset).drop 4).take (length - 4) = (content.drop offset).take length := by
        rw [← List.take_add]
        congr 1
        omega
      rw [readBody, hbody]
      dsimp only
      rw [hrecord]
      cases hdecode : Record.decode ((content.drop offset).take length) with
      | error e => exact ⟨_, _, rfl⟩
      | ok found =>
        have hwhole := Record.decode_eq_ok_iff.mpr (Record.decode_eq_ok_iff.mp hdecode).of_take
        rw [h] at hwhole
        cases hwhole

/-- Asked once for each record that follows, a reader gives the rows and stands behind them. -/
theorem nexts_standing {rows : List Row} (hfits : ∀ row ∈ rows, row.Fits) {tail : Bytes}
    (h : content.drop offset = rows.flatMap Record.encode ++ tail) (hle : offset ≤ content.length) :
    (standing path content offset).nexts rows.length = (rows.map fun row => .ok (some row),
      standing path content (offset + (rows.flatMap Record.encode).length)) := by
  induction rows generalizing offset with
  | nil => rfl
  | cons row rows ih =>
    obtain ⟨hrow, hrows⟩ := List.forall_mem_cons.mp hfits
    obtain ⟨hnext, hdrop, hle'⟩ := next_standing_cons hrow h hle path
    rw [List.length_cons, nexts, hnext, ih hrows hdrop hle', List.map_cons, List.flatMap_cons,
      List.length_append, Nat.add_assoc]

theorem nexts_append (m n : ℕ) (r : RowReader) :
    (r.nexts (m + n)).1 = (r.nexts m).1 ++ ((r.nexts m).2.nexts n).1 := by
  induction m generalizing r with
  | zero => rw [Nat.zero_add, nexts, List.nil_append]
  | succ m ih => rw [Nat.succ_add, nexts, ih, nexts, List.cons_append]

end RowReader

/-- The records before the one at a place fill the file up to this place. -/
theorem Record.exists_split_of_getElem? {rows : List Row} {first i start : ℕ} {row : Row}
    (h : (rows.zip (offsets first rows))[i]? = some (row, start)) :
    ∃ before after, rows = before ++ row :: after ∧ before.length = i ∧
      start = first + (before.flatMap encode).length := by
  induction rows generalizing first i with
  | nil => cases h
  | cons head rows ih =>
    rw [offsets, List.zip_cons_cons] at h
    cases i with
    | zero =>
      cases h
      exact ⟨[], rows, rfl, rfl, rfl⟩
    | succ i =>
      obtain ⟨before, after, rfl, rfl, rfl⟩ := ih h
      refine ⟨head :: before, after, rfl, rfl, ?_⟩
      rw [List.flatMap_cons, List.length_append, Nat.add_assoc]

namespace RowReader

/-- Of a file with one damaged record a reader gives the rows before it and then an error. -/
theorem exists_corruption_of_damage {before : List Row} (hfits : ∀ row ∈ before, row.Fits)
    {tail : Bytes} {e : RecordError} (htail : tail ≠ []) (hdecode : Record.decode tail = .error e)
    (path : String) : ∃ damage,
      ((ofContent path (before.flatMap Record.encode ++ tail)).nexts (before.length + 1)).1 =
          (before.map fun row => .ok (some row)) ++
            [.error (.corruption (before.flatMap Record.encode).length damage)] ∧
        ((ofContent path (before.flatMap Record.encode ++ tail)).readAll []).1 =
          .error (.corruption (before.flatMap Record.encode).length damage) := by
  obtain ⟨content, hcontent⟩ : ∃ content, content = before.flatMap Record.encode ++ tail :=
    ⟨_, rfl⟩
  have hdrop : content.drop 0 = before.flatMap Record.encode ++ tail := hcontent
  have hrest : content.drop (before.flatMap Record.encode).length = tail := by
    rw [hcontent, List.drop_left]
  have hlt : (before.flatMap Record.encode).length < content.length := by
    have hpositive := List.length_pos_of_ne_nil htail
    rw [hcontent, List.length_append]
    omega
  obtain ⟨damage, s, hnext⟩ := next_standing_of_error path (hrest.symm ▸ hdecode) hlt
  refine ⟨damage, ?_, ?_⟩
  · rw [← hcontent, ofContent_eq_standing, nexts_append,
      nexts_standing hfits hdrop (Nat.zero_le _), Nat.zero_add]
    simp only [nexts, hnext]
  · rw [← hcontent, ofContent_eq_standing, readAll_standing_append hfits hdrop (Nat.zero_le _),
      Nat.zero_add, readAll_of_error hnext]

end RowReader

/-- One changed byte of a file of stored rows is found at the record that it lies in: the rows before
are read as they were, and then an error tells where the record starts. -/
theorem Disk.corruption_of_changed_byte {disk stored : Disk} {path : String} {rows : List Row}
    {size : ℕ} (hstored : disk.storeRows path rows = (.ok size, stored))
    (hfits : ∀ row ∈ rows, row.Fits) :
    stored.read path = .ok (rows.flatMap Record.encode) ∧
      ∀ i row start, (Record.located rows)[i]? = some (row, start) →
        ∀ k b, k < (Record.encode row).length → (Record.encode row)[k]? ≠ some b →
          (∃ reader damage,
            RowReader.open? (stored.write path ((rows.flatMap Record.encode).set (start + k) b)) path =
                .ok reader ∧
              (reader.nexts (i + 1)).1 = ((rows.take i).map fun row => .ok (some row)) ++
                [.error (.corruption start damage)] ∧
              (reader.readAll []).1 = .error (.corruption start damage)) ∧
            ∀ more, ∃ e, Record.decode ((Record.encode row).set k b ++ more) = .error e := by
  obtain ⟨number, hentry⟩ := openEntry_storeRows hstored
  refine ⟨?_, ?_⟩
  · rw [read, hentry]
    rfl
  · intro i row start hlocated k b hk hne
    obtain ⟨before, after, rfl, rfl, rfl⟩ := Record.exists_split_of_getElem? hlocated
    obtain ⟨hbefore, hrow⟩ := List.forall_mem_append.mp hfits
    have hrow := hrow row List.mem_cons_self
    have hdamaged := Record.exists_decode_error_of_set hrow hk hne
    refine ⟨?_, hdamaged⟩
    obtain ⟨e, hdecode⟩ := hdamaged (after.flatMap Record.encode)
    have htail : (Record.encode row).set k b ++ after.flatMap Record.encode ≠ [] := by
      intro hnil
      have hlength := congrArg List.length hnil
      rw [List.length_append, List.length_set, List.length_nil] at hlength
      omega
    have hset : ((before ++ row :: after).flatMap Record.encode).set
        (0 + (before.flatMap Record.encode).length + k) b = before.flatMap Record.encode ++
          ((Record.encode row).set k b ++ after.flatMap Record.encode) := by
      rw [List.flatMap_append, List.flatMap_cons, Nat.zero_add, List.set_append_right _ _ (by omega),
        Nat.add_sub_cancel_left, List.set_append_left _ _ hk]
    obtain ⟨damage, hnexts, hall⟩ :=
      RowReader.exists_corruption_of_damage hbefore htail hdecode path
    refine ⟨_, damage, RowReader.open?_of_openEntry (openEntry_write hentry _), ?_, ?_⟩
    · rw [hset, hnexts, Nat.zero_add, List.take_left]
    · rw [hset, hall, Nat.zero_add]

/-- Also a length that takes in the next record is found. -/
theorem Disk.corruption_of_changed_length :
    ∃ stored size, Disk.empty.storeRows "t.rows" [[.int4 1], [.int4 2], [.null]] = (.ok size, stored) ∧
      ∃ reader damage,
        RowReader.open? (stored.write "t.rows" (([[.int4 1], [.int4 2], [.null]].flatMap
          Record.encode).set 15 26)) "t.rows" = .ok reader ∧
        (reader.nexts 2).1 = [.ok (some [.int4 1]), .error (.corruption 15 damage)] ∧
        (reader.readAll []).1 = .error (.corruption 15 damage) := by
  have hstored : ∃ stored size,
      Disk.empty.storeRows "t.rows" [[.int4 1], [.int4 2], [.null]] = (.ok size, stored) := by
    rw [storeRows, RowAppender.create_on_empty]
    exact ⟨_, _, rfl⟩
  obtain ⟨stored, size, hstored⟩ := hstored
  have hfits : ∀ row ∈ [[Datum.int4 1], [.int4 2], [.null]], Row.Fits row := by
    rw [List.forall_mem_cons, List.forall_mem_cons, List.forall_mem_singleton]
    exact ⟨⟨by decide, by decide⟩, ⟨by decide, by decide⟩, ⟨by decide, by decide⟩⟩
  obtain ⟨⟨reader, damage, hopen, hnexts, hall⟩, -⟩ :=
    (corruption_of_changed_byte hstored hfits).2 1 [.int4 2] 15 (by decide) 0 26 (by decide)
      (by decide)
  exact ⟨stored, size, hstored, reader, damage, hopen, hnexts, hall⟩

end BlockQuery
