import BlockQuery.Index.Scan
import BlockQuery.Index.Writer
import BlockQuery.Proofs.Index.Search
import BlockQuery.Proofs.Row.Codec

/-!
# The entries of an index

A reader lists entries if its bottom level holds them one after another and its
top level the first key of each block with the place of the block.  Then every
block can be read, and a search finds the place where a test splits the entries.
-/

namespace BlockQuery.Index

open BlockQuery.ByteCursor (ahead)

/-- Whether an entry can be stored and read back. -/
structure Storable (entry : Row × ℕ) : Prop where
  key : entry.1.Storable
  number : entry.2 < 2 ^ 64

theorem length_encodeEntry (entry : Row × ℕ) :
    (encodeEntry entry).length = encodedEntryLength entry := by
  rw [encodeEntry, List.length_append, Row.length_encode, Bytes.length_ofNat, encodedEntryLength]

theorem readEntry_ahead {entry : Row × ℕ} (h : Storable entry) (level : String) (at_ p : ℕ)
    (ys : Bytes) :
    readEntry level at_ (ahead p (encodeEntry entry ++ ys)) =
      .ok (entry.1, entry.2, ahead (p + encodedEntryLength entry) ys) := by
  have hnumber : entry.2 < 256 ^ 8 := h.number.trans_eq (by norm_num)
  rw [readEntry, encodeEntry, List.append_assoc, Read.row_ahead h.key]
  dsimp only
  rw [Read.nat_ahead_of_lt hnumber, encodedEntryLength, Nat.add_assoc]

/-- The entry as a reader gives it. -/
def bottomEntry (entry : Row × ℕ) : BottomEntry := ⟨entry.1, entry.2⟩

theorem SplitsAt.map_bottomEntry {before : Row → Bool} {entries : List (Row × ℕ)} {k : ℕ}
    (h : SplitsAt (fun e : Row × ℕ => before e.1) entries k) :
    SplitsAt (fun e : BottomEntry => before e.key) (entries.map bottomEntry) k where
  le_length := h.le_length.trans (List.length_map _).ge
  iff_lt i e he := by
    rw [List.getElem?_map] at he
    obtain ⟨entry, hentry, rfl⟩ := Option.map_eq_some_iff.mp he
    exact h.iff_lt i entry hentry

/-- Where an entry starts in the bottom level. -/
def placeOf (entries : List (Row × ℕ)) (i : ℕ) : ℕ := ((entries.take i).flatMap encodeEntry).length

/-- Whether a reader lists some entries. -/
structure Reader.Lists (r : Reader) (entries : List (Row × ℕ)) : Prop where
  positive : 0 < r.header.loadFactor
  count : r.header.entryCount = entries.length
  bottomLength : r.header.bottomLength = placeOf entries entries.length
  bottom : r.bottom = entries.flatMap encodeEntry
  top : ∀ j, r.top[j]? =
    entries[j * r.header.loadFactor]?.map fun e => ⟨e.1, placeOf entries (j * r.header.loadFactor)⟩
  width : ∀ e ∈ entries, e.1.length = r.header.schema.length
  storable : ∀ e ∈ entries, Storable e

section Blocks

variable {r : Reader} {entries : List (Row × ℕ)}

theorem decodeBlock_ahead {block at_ : ℕ} {es : List (Row × ℕ)}
    (hwidth : ∀ e ∈ es, e.1.length = r.header.schema.length) (hstorable : ∀ e ∈ es, Storable e)
    (done : List BottomEntry) (p : ℕ) :
    r.decodeBlock block at_ es.length done (ahead p (es.flatMap encodeEntry)) =
      .ok (done.reverse ++ es.map bottomEntry) := by
  induction es generalizing done p with
  | nil =>
    have hend : (ahead p []).remaining = 0 := by simp [ahead, ByteCursor.remaining]
    rw [List.length_nil, Reader.decodeBlock, List.flatMap_nil, if_neg (by simp [hend]),
      List.map_nil, List.append_nil]
  | cons e es ih =>
    obtain ⟨hwe, hwidth⟩ := List.forall_mem_cons.mp hwidth
    obtain ⟨hse, hstorable⟩ := List.forall_mem_cons.mp hstorable
    rw [List.length_cons, Reader.decodeBlock, List.flatMap_cons, readEntry_ahead hse]
    dsimp only
    rw [if_neg (by simp [hwe]), ih hwidth hstorable, List.reverse_cons, List.append_assoc,
      List.map_cons]
    rfl

/-- The entries from one to another lie between their places. -/
theorem slice_flatMap (start size : ℕ) :
    ((entries.flatMap encodeEntry).drop (placeOf entries start)).take
        (placeOf entries (start + size) - placeOf entries start) =
      ((entries.drop start).take size).flatMap encodeEntry := by
  have hsplit : entries.flatMap encodeEntry = (entries.take start).flatMap encodeEntry ++
      (((entries.drop start).take size).flatMap encodeEntry ++
        ((entries.drop start).drop size).flatMap encodeEntry) := by
    rw [← List.flatMap_append, List.take_append_drop, ← List.flatMap_append,
      List.take_append_drop]
  have hplace : placeOf entries (start + size) - placeOf entries start =
      (((entries.drop start).take size).flatMap encodeEntry).length := by
    rw [placeOf, placeOf, List.take_add, List.flatMap_append, List.length_append]
    omega
  rw [hplace, placeOf, hsplit, List.drop_left, List.take_left]

variable (h : r.Lists entries)
include h

theorem length_top_le_iff {j : ℕ} : r.top.length ≤ j ↔ entries.length ≤ j * r.header.loadFactor := by
  rw [← List.getElem?_eq_none_iff, h.top, Option.map_eq_none_iff, List.getElem?_eq_none_iff]

/-- A block ends where the next one starts, or at the end of the bottom level. -/
theorem blockSpan?_eq {j : ℕ} (hj : j * r.header.loadFactor < entries.length) :
    r.blockSpan? j = some (placeOf entries (j * r.header.loadFactor),
      placeOf entries (j * r.header.loadFactor + r.header.loadFactor)) := by
  have hnext : (j + 1) * r.header.loadFactor = j * r.header.loadFactor + r.header.loadFactor :=
    Nat.succ_mul _ _
  rw [Reader.blockSpan?, h.top j, h.top (j + 1), List.getElem?_eq_getElem hj, hnext]
  rcases lt_or_ge (j * r.header.loadFactor + r.header.loadFactor) entries.length with hin | hout
  · rw [List.getElem?_eq_getElem hin]
    rfl
  · have hall : placeOf entries (j * r.header.loadFactor + r.header.loadFactor) =
        r.header.bottomLength := by
      rw [h.bottomLength, placeOf, placeOf, List.take_of_length_le hout, List.take_length]
    rw [List.getElem?_eq_none hout, hall]
    rfl

/-- A block holds the load factor's worth of entries, the last one what is left. -/
theorem readBlock_eq {j : ℕ} (hj : j * r.header.loadFactor < entries.length) :
    r.readBlock j = .ok (((entries.drop (j * r.header.loadFactor)).take r.header.loadFactor).map
      bottomEntry) := by
  have hlength : min r.header.loadFactor (r.entryCount - j * r.header.loadFactor) =
      ((entries.drop (j * r.header.loadFactor)).take r.header.loadFactor).length := by
    rw [List.length_take, List.length_drop, ← h.count]
    rfl
  have hmem : ∀ e ∈ (entries.drop (j * r.header.loadFactor)).take r.header.loadFactor, e ∈ entries :=
    fun e he => List.mem_of_mem_drop (List.mem_of_mem_take he)
  rw [Reader.readBlock, blockSpan?_eq h hj]
  dsimp only
  rw [hlength, h.bottom, slice_flatMap, ByteCursor.ofBytes_eq_ahead,
    decodeBlock_ahead (fun e he => h.width e (hmem e he)) (fun e he => h.storable e (hmem e he))]
  rfl

theorem getElem?_readBlock {i : ℕ} (hi : i < entries.length) :
    ∃ es, r.readBlock (i / r.header.loadFactor) = .ok es ∧
      es[i % r.header.loadFactor]? = some (bottomEntry entries[i]) := by
  have hdiv := Nat.div_add_mod' i r.header.loadFactor
  have hmod := Nat.mod_lt i h.positive
  refine ⟨_, readBlock_eq h (by omega), ?_⟩
  rw [List.getElem?_map, List.getElem?_take_of_lt hmod, List.getElem?_drop, hdiv,
    List.getElem?_eq_getElem hi]
  rfl

/-! ## Searching -/

/-- The block in which a search goes on is the last one that starts with an entry before. -/
theorem splitsAt_top {before : Row → Bool} {k : ℕ}
    (hk : SplitsAt (fun e : Row × ℕ => before e.1) entries k) :
    SplitsAt (fun e : TopEntry => before e.key) r.top
      ((k + r.header.loadFactor - 1) / r.header.loadFactor) where
  le_length := by
    have hpositive := h.positive
    have hle : entries.length ≤ r.top.length * r.header.loadFactor :=
      (length_top_le_iff h).mp le_rfl
    have hlength := hk.le_length
    rw [Nat.div_le_iff_le_mul_add_pred h.positive, Nat.mul_comm]
    omega
  iff_lt j e he := by
    have hpositive := h.positive
    rw [h.top j] at he
    obtain ⟨entry, hentry, rfl⟩ := Option.map_eq_some_iff.mp he
    rw [hk.iff_lt _ entry hentry, Nat.lt_div_iff_mul_lt h.positive]
    omega

/-- A search finds the place where its test splits the entries, if that is not the end. -/
theorem seek_eq {key : Row} {strict : Bool} {k : ℕ}
    (hk : SplitsAt (fun e : Row × ℕ => r.isBefore key strict e.1) entries k) :
    r.seek key strict = .ok (if k < entries.length then some k else none) := by
  have hpositive := h.positive
  have hlength := hk.le_length
  rw [Reader.seek, (splitsAt_top h hk).partitionPoint_eq]
  obtain ⟨n, hn⟩ : ∃ n, n = (k + r.header.loadFactor - 1) / r.header.loadFactor := ⟨_, rfl⟩
  have hdiv := Nat.div_add_mod' (k + r.header.loadFactor - 1) r.header.loadFactor
  have hmod := Nat.mod_lt (k + r.header.loadFactor - 1) h.positive
  rw [← hn] at hdiv ⊢
  cases n with
  | zero =>
    have hzero : k = 0 := by omega
    have htop : r.top.length ≤ 0 ↔ entries.length ≤ 0 * r.header.loadFactor := length_top_le_iff h
    rw [if_pos rfl, hzero]
    by_cases hempty : entries.length = 0
    · have hnone : r.top = [] := List.eq_nil_of_length_eq_zero (by omega)
      rw [hnone, if_neg (show ¬0 < entries.length by omega)]
      rfl
    · have hsome : r.top.isEmpty = false := by
        rw [List.isEmpty_eq_false_iff, ← List.length_pos_iff]
        omega
      rw [hsome, if_pos (show 0 < entries.length by omega)]
      rfl
  | succ j =>
    have hstart : (j + 1) * r.header.loadFactor = j * r.header.loadFactor + r.header.loadFactor :=
      Nat.succ_mul _ _
    have hblock := readBlock_eq h (show j * r.header.loadFactor < entries.length by omega)
    have hslot := (hk.window (j * r.header.loadFactor) r.header.loadFactor).map_bottomEntry.partitionPoint_eq
    rw [if_neg (Nat.succ_ne_zero j), Nat.add_sub_cancel, hblock]
    dsimp only
    rw [hslot, List.length_map, List.length_take, List.length_drop]
    have hnext : r.top.length ≤ j + 1 ↔ entries.length ≤ (j + 1) * r.header.loadFactor :=
      length_top_le_iff h
    generalize j * r.header.loadFactor = start at *
    generalize (j + 1) * r.header.loadFactor = stop at *
    split
    next hin =>
      have hplace : start + min (k - start) (min r.header.loadFactor (entries.length - start)) = k := by
        omega
      rw [hplace, if_pos (by omega)]
    next hout =>
      split
      next hmore =>
        have hplace : stop = k := by omega
        rw [hplace, if_pos (by omega)]
      next hlast => rw [if_neg (by omega)]

end Blocks

end BlockQuery.Index
