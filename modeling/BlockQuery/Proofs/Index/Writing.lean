import BlockQuery.Proofs.Index.Entries
import BlockQuery.Proofs.Row.Order

/-!
# Writing entries

A writer holds the entries that it accepted, and samples the first one of each
block.  A refused entry changes nothing, so that a run of writes holds just the
accepted ones.  A writer that verifies the order accepts them in order.
-/

namespace BlockQuery.Index

/-! ## Places -/

section Places

variable {entries : List (Row × ℕ)} {i j : ℕ}

theorem placeOf_append (more : List (Row × ℕ)) (h : i ≤ entries.length) :
    placeOf (entries ++ more) i = placeOf entries i := by
  rw [placeOf, placeOf, List.take_append_of_le_length h]

theorem placeOf_succ (h : i < entries.length) :
    placeOf entries (i + 1) = placeOf entries i + encodedEntryLength entries[i] := by
  rw [placeOf, placeOf, List.take_succ_eq_append_getElem h, List.flatMap_append, List.length_append,
    List.flatMap_singleton, length_encodeEntry]

theorem placeOf_le (h : i ≤ j) : placeOf entries i ≤ placeOf entries j := by
  rw [placeOf, placeOf]
  have hprefix : entries.take i <+: entries.take j := List.take_prefix_take_left h
  obtain ⟨rest, hrest⟩ := hprefix
  rw [← hrest, List.flatMap_append, List.length_append]
  exact Nat.le_add_right _ _

theorem ten_le_encodedEntryLength (e : Row × ℕ) : 10 ≤ encodedEntryLength e := by
  have hkey := e.1.two_le_encodedLength
  rw [encodedEntryLength]
  omega

theorem placeOf_lt (hij : i < j) (hi : i < entries.length) :
    placeOf entries i < placeOf entries j := by
  have hstep := placeOf_succ hi
  have hlength := ten_le_encodedEntryLength entries[i]
  have hrest : placeOf entries (i + 1) ≤ placeOf entries j := placeOf_le hij
  omega

theorem length_le_placeOf (entries : List (Row × ℕ)) :
    entries.length ≤ placeOf entries entries.length := by
  rw [placeOf, List.take_length]
  induction entries with
  | nil => exact Nat.zero_le _
  | cons e entries ih =>
    have hlength := ten_le_encodedEntryLength e
    rw [List.flatMap_cons, List.length_append, length_encodeEntry, List.length_cons]
    omega

end Places

namespace Writer

/-! ## What a writer holds -/

/-- Whether a writer has just the given entries, with the first one of each block sampled. -/
structure Holds (w : Writer) (entries : List (Row × ℕ)) : Prop where
  positive : 0 < w.loadFactor
  bottom : w.bottom = entries.reverse
  bottomLength : w.bottomLength = placeOf entries entries.length
  count : w.entryCount = entries.length
  top : ∀ j, w.top.reverse[j]? =
    entries[j * w.loadFactor]?.map fun e => (e.1, placeOf entries (j * w.loadFactor))
  width : ∀ e ∈ entries, e.1.length = w.schema.length
  lastKey : w.verifyOrder = true → w.lastKey = entries.getLast?.map Prod.fst

variable {w next : Writer} {entries : List (Row × ℕ)} {key : Row} {offset : ℕ}

/-- What writing an entry leaves as it is. -/
structure SameFile (w next : Writer) : Prop where
  path : next.path = w.path
  file : next.file = w.file
  schema : next.schema = w.schema
  specs : next.specs = w.specs
  order : next.order = w.order
  loadFactor : next.loadFactor = w.loadFactor
  verifyOrder : next.verifyOrder = w.verifyOrder

theorem SameFile.refl (w : Writer) : SameFile w w := ⟨rfl, rfl, rfl, rfl, rfl, rfl, rfl⟩

theorem SameFile.trans {a b c : Writer} (h₁ : SameFile a b) (h₂ : SameFile b c) : SameFile a c :=
  ⟨h₂.path.trans h₁.path, h₂.file.trans h₁.file, h₂.schema.trans h₁.schema,
    h₂.specs.trans h₁.specs, h₂.order.trans h₁.order, h₂.loadFactor.trans h₁.loadFactor,
    h₂.verifyOrder.trans h₁.verifyOrder⟩

theorem write_eq_ok (h : w.write key offset = .ok next) :
    key.length = w.schema.length ∧ w.larger? key = none ∧ next = { w with
      top := if w.entryCount % w.loadFactor = 0 then (key, w.bottomLength) :: w.top else w.top
      bottom := (key, offset) :: w.bottom
      bottomLength := w.bottomLength + encodedEntryLength (key, offset)
      entryCount := w.entryCount + 1
      lastKey := if w.verifyOrder then some key else w.lastKey } := by
  rw [write] at h
  split at h
  next => cases h
  next hwidth =>
    split at h
    next => cases h
    next hlast =>
      cases h
      exact ⟨not_not.mp hwidth, hlast, rfl⟩

theorem sameFile_of_write (h : w.write key offset = .ok next) : SameFile w next := by
  obtain ⟨-, -, rfl⟩ := write_eq_ok h
  exact ⟨rfl, rfl, rfl, rfl, rfl, rfl, rfl⟩

namespace Holds

theorem length_top_le_iff (h : w.Holds entries) {j : ℕ} :
    w.top.length ≤ j ↔ entries.length ≤ j * w.loadFactor := by
  rw [← List.length_reverse, ← List.getElem?_eq_none_iff, h.top, Option.map_eq_none_iff,
    List.getElem?_eq_none_iff]

/-- The samples after one more entry, which is sampled itself if it starts a block. -/
theorem top_append (h : w.Holds entries) (e : Row × ℕ) (j : ℕ) :
    (if w.entryCount % w.loadFactor = 0 then (e.1, w.bottomLength) :: w.top else w.top).reverse[j]? =
      (entries ++ [e])[j * w.loadFactor]?.map
        fun x => (x.1, placeOf (entries ++ [e]) (j * w.loadFactor)) := by
  have hlength : (entries ++ [e]).length = entries.length + 1 := List.length_append
  have hold : w.top.length ≤ j ↔ entries.length ≤ j * w.loadFactor := h.length_top_le_iff
  -- the entry that is sampled for `j` is an older one, the new one, or there is none yet
  rcases lt_trichotomy (j * w.loadFactor) entries.length with hlt | heq | hgt
  · have hsame : w.top.reverse[j]? = (entries ++ [e])[j * w.loadFactor]?.map
        fun x => (x.1, placeOf (entries ++ [e]) (j * w.loadFactor)) := by
      rw [h.top, List.getElem?_append_left hlt, placeOf_append [e] hlt.le]
    have hj : j < w.top.reverse.length := by
      rw [List.length_reverse]
      omega
    rw [← hsame]
    split
    · rw [List.reverse_cons, List.getElem?_append_left hj]
    · rfl
  · have hstarts : w.entryCount % w.loadFactor = 0 := by
      rw [h.count, ← heq, Nat.mul_mod_left]
    have hlast : w.top.reverse.length = j := by
      have hsmaller : w.top.length ≤ j := hold.mpr heq.ge
      by_contra hne
      rw [List.length_reverse] at hne
      have hless : w.top.length ≤ j - 1 := by omega
      have hnot := h.length_top_le_iff.mp hless
      rw [← heq] at hnot
      have hback := Nat.le_of_mul_le_mul_right hnot h.positive
      omega
    rw [if_pos hstarts, List.reverse_cons, heq, List.getElem?_append_right hlast.le, hlast,
      Nat.sub_self, List.getElem?_append_right le_rfl, Nat.sub_self, h.bottomLength,
      placeOf_append [e] le_rfl]
    rfl
  · have hnone : (entries ++ [e])[j * w.loadFactor]? = none := by
      apply List.getElem?_eq_none
      omega
    have hold' : w.top.reverse[j]? = none := by
      rw [h.top, List.getElem?_eq_none hgt.le]
      rfl
    rw [hnone]
    split
    next hstarts =>
      have hblocks : entries.length / w.loadFactor * w.loadFactor = entries.length := by
        rw [← h.count]
        exact Nat.div_mul_cancel (Nat.dvd_of_mod_eq_zero hstarts)
      have htop : w.top.length ≤ entries.length / w.loadFactor :=
        h.length_top_le_iff.mpr hblocks.ge
      have hless : entries.length / w.loadFactor < j := by
        apply Nat.lt_of_mul_lt_mul_right (a := w.loadFactor)
        omega
      apply List.getElem?_eq_none
      rw [List.length_reverse, List.length_cons]
      omega
    next => exact hold'

theorem write (h : w.Holds entries) (hwrite : w.write key offset = .ok next) :
    next.Holds (entries ++ [(key, offset)]) := by
  obtain ⟨hwidth, -, rfl⟩ := write_eq_ok hwrite
  refine ⟨h.positive, ?_, ?_, ?_, h.top_append (key, offset), ?_, ?_⟩
  · rw [List.reverse_append, ← h.bottom]
    rfl
  · have hlt : entries.length < (entries ++ [(key, offset)]).length := by simp
    have hlast : (entries ++ [(key, offset)])[entries.length] = (key, offset) := by simp
    rw [List.length_append, List.length_singleton, placeOf_succ hlt, hlast,
      placeOf_append _ le_rfl, ← h.bottomLength]
  · rw [List.length_append, ← h.count]
    rfl
  · intro e he
    rcases List.mem_append.mp he with he | he
    · exact h.width e he
    · rw [List.mem_singleton.mp he]
      exact hwidth
  · intro hverify
    rw [List.getLast?_append, List.getLast?_singleton]
    exact if_pos hverify

end Holds

/-! ## Runs of writes -/

/-- The entries among some writes that are accepted, and the writer after all of them. -/
def writeEach (w : Writer) : List (Row × ℕ) → List (Row × ℕ) × Writer
  | [] => ([], w)
  | e :: rest =>
    match w.write e.1 e.2 with
    | .error _ => w.writeEach rest
    | .ok next => (e :: (next.writeEach rest).1, (next.writeEach rest).2)

theorem sublist_writeEach (w : Writer) (writes : List (Row × ℕ)) :
    (w.writeEach writes).1.Sublist writes := by
  fun_induction writeEach w writes with
  | case1 w => exact List.Sublist.refl []
  | case2 w e rest _ _ ih => exact ih.cons e
  | case3 w e rest next _ ih => exact ih.cons_cons e

theorem sameFile_writeEach (w : Writer) (writes : List (Row × ℕ)) :
    SameFile w (w.writeEach writes).2 := by
  fun_induction writeEach w writes with
  | case1 w => exact SameFile.refl w
  | case2 w e rest _ _ ih => exact ih
  | case3 w e rest next hnext ih => exact (sameFile_of_write hnext).trans ih

theorem Holds.writeEach (h : w.Holds entries) (writes : List (Row × ℕ)) :
    (w.writeEach writes).2.Holds (entries ++ (w.writeEach writes).1) := by
  fun_induction Writer.writeEach w writes generalizing entries with
  | case1 w => rwa [List.append_nil]
  | case2 w e rest _ _ ih => exact ih h
  | case3 w e rest next hnext ih =>
    have hrun := ih (h.write hnext)
    rwa [List.append_assoc] at hrun

end Writer

/-! ## Entries in order -/

/-- Whether no key comes before an earlier one. -/
def Ascending (order : RowOrder) (entries : List (Row × ℕ)) : Prop :=
  entries.Pairwise fun a b => (order.compare a.1 b.1).isLE

section Order

variable {types : ℕ → DataType} {order : RowOrder} {entries : List (Row × ℕ)} {e : Row × ℕ}

/-- The last of the keys in order is the only one that the next key has to be compared with. -/
theorem Ascending.concat (h : Ascending order entries)
    (htyped : ∀ x ∈ entries, order.Typed types x.1) (he : order.Typed types e.1)
    (hlast : ∀ last, entries.getLast? = some last → (order.compare last.1 e.1).isLE) :
    Ascending order (entries ++ [e]) := by
  refine List.pairwise_append.mpr ⟨h, List.pairwise_singleton _ _, ?_⟩
  intro x hx y hy
  rw [List.mem_singleton.mp hy]
  obtain ⟨front, last, rfl⟩ :=
    (List.eq_nil_or_concat' entries).resolve_left (List.ne_nil_of_mem hx)
  have hend := hlast last List.getLast?_concat
  rcases List.mem_append.mp hx with hfront | hmem
  · have hxlast := (List.pairwise_append.mp h).2.2 x hfront last (List.mem_singleton_self last)
    have hlastTyped := htyped last (List.mem_append_right front (List.mem_singleton_self last))
    exact RowOrder.compare_trans (htyped x hx) hlastTyped he hxlast hend
  · rwa [List.mem_singleton.mp hmem]

theorem Writer.isLE_of_larger? {w : Writer} {key last : Row} (hverify : w.verifyOrder = true)
    (hlast : w.lastKey = some last) (h : w.larger? key = none) :
    (w.order.compare last key).isLE := by
  rw [Writer.larger?, if_pos hverify, hlast, Option.filter_some] at h
  cases hcompare : w.order.compare last key with
  | gt =>
    rw [hcompare] at h
    cases h
  | lt | eq => rfl

theorem Writer.Holds.ascending_write {w next : Writer} (h : w.Holds entries)
    (hverify : w.verifyOrder = true) (hascending : Ascending w.order entries)
    (htyped : ∀ x ∈ entries, w.order.Typed types x.1) (he : w.order.Typed types e.1)
    (hwrite : w.write e.1 e.2 = .ok next) : Ascending w.order (entries ++ [e]) := by
  obtain ⟨-, hlarger, -⟩ := Writer.write_eq_ok hwrite
  apply hascending.concat htyped he
  intro last hlast
  have hkey := h.lastKey hverify
  rw [hlast] at hkey
  exact Writer.isLE_of_larger? hverify hkey hlarger

/-- A writer that verifies the order accepts its entries in order. -/
theorem Writer.Holds.ascending_writeEach {w : Writer} {writes : List (Row × ℕ)}
    (h : w.Holds entries) (hverify : w.verifyOrder = true) (hascending : Ascending w.order entries)
    (htyped : ∀ x ∈ entries, w.order.Typed types x.1)
    (hwrites : ∀ x ∈ writes, w.order.Typed types x.1) :
    Ascending w.order (entries ++ (w.writeEach writes).1) := by
  fun_induction Writer.writeEach w writes generalizing entries with
  | case1 w => rwa [List.append_nil]
  | case2 w e rest _ _ ih =>
    exact ih h hverify hascending htyped (List.forall_mem_cons.mp hwrites).2
  | case3 w e rest next hnext ih =>
    obtain ⟨he, hrest⟩ := List.forall_mem_cons.mp hwrites
    have hsame := Writer.sameFile_of_write hnext
    have hstep := h.ascending_write hverify hascending htyped he hnext
    have hboth : ∀ x ∈ entries ++ [e], w.order.Typed types x.1 :=
      List.forall_mem_append.mpr ⟨htyped, List.forall_mem_singleton.mpr he⟩
    rw [← hsame.order] at hstep hboth hrest
    have hrun := ih (h.write hnext) (hsame.verifyOrder.trans hverify) hstep hboth hrest
    rwa [hsame.order, List.append_assoc] at hrun

end Order

end BlockQuery.Index
