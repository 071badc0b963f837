import BlockQuery.Index.Writer
import BlockQuery.Proofs.Index.Lookup

/-!
# Built indexes

A build sorts its entries and writes all of them.  The file is that of a writer
that was filled with them, and it opens again within the limits of the format.
-/

namespace BlockQuery.Index

/-! ## Sorted entries -/

section Sorted

variable {types : ℕ → DataType} {order : RowOrder} {entries : List (Row × ℕ)}

theorem perm_sortEntries (order : RowOrder) (entries : List (Row × ℕ)) :
    (sortEntries order entries).Perm entries := List.mergeSort_perm _ _

theorem length_encode_sortEntries (order : RowOrder) (entries : List (Row × ℕ)) :
    ((sortEntries order entries).flatMap encodeEntry).length =
      (entries.flatMap encodeEntry).length :=
  ((perm_sortEntries order entries).flatMap_right encodeEntry).length_eq

/-- Entries of one type are sorted as by the order of this type, which is transitive. -/
theorem ascending_sortEntries (htyped : ∀ e ∈ entries, order.Typed types e.1) :
    Ascending order (sortEntries order entries) := by
  have hsame : sortEntries order entries = entries.mergeSort fun a b =>
      (RowOrder.compareKeysAs types order.keys a.1 b.1).isLE :=
    mergeSort_congr fun a ha b hb => RowOrder.compare_eq (htyped a ha) (htyped b hb)
  have hsorted := pairwise_mergeSort
    (transCmp_comap (RowOrder.transCmp_compareKeysAs types order.keys) Prod.fst) entries
  rw [← hsame] at hsorted
  apply List.Pairwise.imp_of_mem _ hsorted
  intro a b ha hb hab
  have hmem := fun e => (perm_sortEntries order entries).mem_iff (a := e)
  rwa [RowOrder.compare_eq (htyped a ((hmem a).mp ha)) (htyped b ((hmem b).mp hb))]

end Sorted

namespace Writer

variable {w last : Writer} {entries writes : List (Row × ℕ)}

/-! ## Writing all entries -/

/-- A run of writes in which none is refused accepts all of them. -/
theorem writeEach_of_writeAll (h : w.writeAll writes = .ok last) :
    w.writeEach writes = (writes, last) := by
  induction writes generalizing w with
  | nil =>
    cases h
    rfl
  | cons e writes ih =>
    rw [writeAll] at h
    split at h
    next => cases h
    next next hnext =>
      rw [writeEach, hnext]
      dsimp only
      rw [ih h]

theorem sameFile_writeAll (h : w.writeAll writes = .ok last) : SameFile w last := by
  have hsame := sameFile_writeEach w writes
  rwa [writeEach_of_writeAll h] at hsame

/-- A writer that does not verify the order takes all entries of the right width. -/
theorem exists_writeAll (hverify : w.verifyOrder = false)
    (hwidth : ∀ e ∈ writes, e.1.length = w.schema.length) : ∃ last, w.writeAll writes = .ok last := by
  induction writes generalizing w with
  | nil => exact ⟨w, rfl⟩
  | cons e writes ih =>
    obtain ⟨he, hwrites⟩ := List.forall_mem_cons.mp hwidth
    have hlarger : w.larger? e.1 = none := by
      rw [larger?, hverify]
      rfl
    rw [Writer.writeAll, write, if_neg (not_not_intro he), hlarger]
    exact ih hverify hwrites

theorem Holds.writeAll (h : w.Holds entries) (hrun : w.writeAll writes = .ok last) :
    last.Holds (entries ++ writes) := by
  have hholds := h.writeEach writes
  rwa [writeEach_of_writeAll hrun] at hholds

/-- A sampled entry takes as much of the top level as of the bottom level. -/
theorem length_topSection_write {next : Writer} {key : Row} {offset : ℕ}
    (h : w.topSection.length ≤ w.bottomSection.length) (hwrite : w.write key offset = .ok next) :
    next.topSection.length ≤ next.bottomSection.length := by
  obtain ⟨-, -, rfl⟩ := write_eq_ok hwrite
  have hsection : ∀ (e : Row × ℕ) (es : List (Row × ℕ)),
      ((e :: es).reverse.flatMap encodeEntry).length =
        (es.reverse.flatMap encodeEntry).length + encodedEntryLength e := by
    intro e es
    rw [List.reverse_cons, List.flatMap_append, List.flatMap_singleton, List.length_append,
      length_encodeEntry]
  have hlength : encodedEntryLength (key, w.bottomLength) = encodedEntryLength (key, offset) := rfl
  unfold topSection bottomSection at h ⊢
  dsimp only
  rw [hsection]
  split
  · rw [hsection]
    omega
  · omega

theorem length_topSection_writeAll (h : w.topSection.length ≤ w.bottomSection.length)
    (hrun : w.writeAll writes = .ok last) :
    last.topSection.length ≤ last.bottomSection.length := by
  induction writes generalizing w with
  | nil =>
    cases hrun
    exact h
  | cons e writes ih =>
    rw [writeAll] at hrun
    split at hrun
    next => cases hrun
    next next hnext => exact ih (length_topSection_write h hnext) hrun

end Writer

/-! ## Filled writers -/

/-- What is known of a new writer after some entries were written, none of which was refused. -/
structure Filled (disk : Disk) (path : String) (schema : Schema) (specs : List SortSpec)
    (loadFactor : ℕ) (entries : List (Row × ℕ)) (w : Writer) (made : Disk) : Prop where
  schema_eq : w.schema = schema
  specs_eq : w.specs = specs
  loadFactor_eq : w.loadFactor = loadFactor
  schema_ne : w.schema ≠ []
  specs_ne : w.specs ≠ []
  order : RowOrder.ofSpecs w.schema w.specs = .ok w.order
  opened : Disk.Opened disk path w.file made
  holds : w.Holds entries
  sections : w.topSection.length ≤ w.bottomSection.length

section Fill

variable {disk made sealed : Disk} {path : String} {schema : Schema} {specs : List SortSpec}
  {loadFactor : ℕ} {verifyOrder : Bool} {entries : List (Row × ℕ)} {summary : Summary}
  {w₀ w : Writer}

/-- What creating a writer has checked. -/
theorem Writer.eq_fresh_of_create
    (h : create disk path schema specs loadFactor verifyOrder = .ok (w, made)) :
    0 < loadFactor ∧ specs ≠ [] ∧ schema ≠ [] ∧ ∃ file order,
      RowOrder.ofSpecs schema specs = .ok order ∧ disk.create path = .ok (file, made) ∧
        w = fresh path file schema specs order loadFactor verifyOrder := by
  rw [create] at h
  split at h
  next => cases h
  next hfactor =>
    split at h
    next => cases h
    next hkeys =>
      rw [Bool.or_eq_true, List.isEmpty_iff, List.isEmpty_iff, not_or] at hkeys
      split at h
      next => cases h
      next order horder =>
        split at h
        next => cases h
        next file _ hfile =>
          cases h
          exact ⟨Nat.pos_of_ne_zero hfactor, hkeys.1, hkeys.2, file, order, horder, hfile, rfl⟩

theorem filled_of_writeAll
    (hcreate : Writer.create disk path schema specs loadFactor verifyOrder = .ok (w₀, made))
    (hwrite : w₀.writeAll entries = .ok w) :
    Filled disk path schema specs loadFactor entries w made := by
  obtain ⟨hfactor, hspecs, hschema, file, order, horder, hfile, rfl⟩ :=
    Writer.eq_fresh_of_create hcreate
  have hfresh : (Writer.fresh path file schema specs order loadFactor verifyOrder).Holds [] :=
    Writer.holds_fresh hfactor verifyOrder
  have hsame := Writer.sameFile_writeAll hwrite
  have hsections := Writer.length_topSection_writeAll (Nat.zero_le _) hwrite
  refine ⟨hsame.schema, hsame.specs, hsame.loadFactor, ?_, ?_, ?_, ?_, ?_, hsections⟩
  · rwa [hsame.schema]
  · rwa [hsame.specs]
  · rw [hsame.schema, hsame.specs, hsame.order]
    exact horder
  · rw [hsame.file]
    exact Disk.opened_of_create hfile
  · exact hfresh.writeAll hwrite

/-- A build that ended well has filled a writer with its sorted entries. -/
theorem exists_filled_of_build
    (h : build disk path schema specs loadFactor verifyOrder entries = (.ok summary, sealed)) :
    ∃ w made,
      Filled disk path schema specs loadFactor (sortEntries w.order entries) w made ∧
        w.close made = .ok (summary, sealed) := by
  rw [build] at h
  split at h
  next => cases h
  next w₀ made hcreate =>
    split at h
    next => cases h
    next _ _ hrun =>
      cases h
      obtain ⟨w, hwrite, hclose⟩ := Except.bind_eq_ok.mp hrun
      have hsame := Writer.sameFile_writeAll hwrite
      have hfilled := filled_of_writeAll hcreate hwrite
      rw [← hsame.order] at hfilled
      exact ⟨w, made, hfilled, hclose⟩

end Fill

namespace Filled

variable {disk made sealed : Disk} {path : String} {schema : Schema} {specs : List SortSpec}
  {loadFactor : ℕ} {entries : List (Row × ℕ)} {summary : Summary} {w : Writer}

theorem sized (h : Filled disk path schema specs loadFactor entries w made)
    (hfactor : loadFactor < 2 ^ 32) (hsize : (entries.flatMap encodeEntry).length ≤ 2 ^ 62) :
    w.Sized := by
  have hsections := h.sections
  rw [← h.holds.bottomSection_eq] at hsize
  refine ⟨?_, ?_⟩
  · rwa [h.loadFactor_eq]
  · omega

/-- The limits under which an index opens again. -/
theorem fits (h : Filled disk path schema specs loadFactor entries w made) (hsized : w.Sized)
    (hcolumns : schema.length ≤ 65535) (hcount : specs.length ≤ 65535)
    (hnames : ∀ c ∈ schema, (Bytes.ofText c.name).length ≤ maxNameLength) : w.Fits := by
  refine ⟨hsized, ?_, ?_, ?_⟩
  · rwa [h.schema_eq]
  · rwa [h.specs_eq]
  · rwa [h.schema_eq]

/-- A filled writer can be closed if what it has to write is not too long. -/
theorem exists_close (h : Filled disk path schema specs loadFactor entries w made)
    (hfactor : loadFactor < 2 ^ 32) (hsize : (entries.flatMap encodeEntry).length ≤ 2 ^ 62)
    (hheader : (schema.flatMap Header.encodeColumn).length + specs.length * 4 + 64 ≤ 2 ^ 33) :
    ∃ summary sealed, w.close made = .ok (summary, sealed) := by
  have hbody : w.header.body.length + 12 < 2 ^ 33 := by
    apply length_body_lt_of_columns
    rwa [Writer.header, h.schema_eq, h.specs_eq]
  have himage := h.holds.image_eq_ok (h.sized hfactor hsize) hbody h.order
  exact ⟨_, _, Writer.close_eq_ok himage made⟩

/-- What is opened is the content of the writer. -/
theorem open?_close (h : Filled disk path schema specs loadFactor entries w made)
    (hclose : w.close made = .ok (summary, sealed)) :
    Reader.open? sealed path = Reader.ofContent path w.content := by
  obtain ⟨content, himage, -⟩ := Writer.get?_of_close h.opened hclose
  rw [Writer.open?_close h.opened himage hclose, (h.holds.image_spec h.order himage).1]

/-- A built index opens within the limits of the format, and lists its entries in order. -/
theorem ofContent_sortEntries {types : ℕ → DataType}
    (h : Filled disk path schema specs loadFactor (sortEntries w.order entries) w made)
    (hfits : w.Fits) (htyped : ∀ e ∈ entries, w.order.Typed types e.1)
    (hstorable : ∀ e ∈ entries, Storable e) :
    ∃ r, Reader.ofContent path w.content = .ok r ∧ r.Lists (sortEntries w.order entries) ∧
      Ascending r.order (sortEntries w.order entries) ∧ r.header = w.header.named ∧
        r.order.keys = w.order.keys := by
  have hmem := fun e => (perm_sortEntries w.order entries).mem_iff (a := e)
  have hascending := ascending_sortEntries htyped
  obtain ⟨r, hread, hlists, hheader, hkeys⟩ := h.holds.ofContent_content hfits h.schema_ne
    h.specs_ne h.order hascending (fun e he => hstorable e ((hmem e).mp he)) path
  refine ⟨r, hread, hlists, ?_, hheader, hkeys⟩
  rw [Ascending, RowOrder.compare_congr hkeys]
  exact hascending

end Filled

section Exists

variable {disk made : Disk} {path : String} {file : OpenFile} {schema : Schema}
  {specs : List SortSpec} {order : RowOrder} {loadFactor : ℕ} {entries : List (Row × ℕ)}

/-- Entries of the right width can be built into an index wherever a file can be made. -/
theorem exists_build (hfile : disk.create path = .ok (file, made)) (hspecs : specs ≠ [])
    (horder : RowOrder.ofSpecs schema specs = .ok order) (hpositive : 1 ≤ loadFactor)
    (hfactor : loadFactor < 2 ^ 32) (hwidth : ∀ e ∈ entries, e.1.length = schema.length)
    (hsize : (entries.flatMap encodeEntry).length ≤ 2 ^ 62)
    (hheader : (schema.flatMap Header.encodeColumn).length + specs.length * 4 + 64 ≤ 2 ^ 33) :
    ∃ summary sealed, build disk path schema specs loadFactor false entries =
      (.ok summary, sealed) := by
  have hcreate := Writer.create_eq_ok hspecs horder hpositive hfile false
  have hsorted : ∀ e ∈ sortEntries order entries, e.1.length = schema.length := by
    intro e he
    exact hwidth e ((perm_sortEntries order entries).mem_iff.mp he)
  obtain ⟨w, hwrite⟩ := Writer.exists_writeAll
    (w := Writer.fresh path file schema specs order loadFactor false) rfl hsorted
  rw [← length_encode_sortEntries order] at hsize
  obtain ⟨summary, sealed, hclose⟩ :=
    (filled_of_writeAll hcreate hwrite).exists_close hfactor hsize hheader
  have horderEq : (Writer.fresh path file schema specs order loadFactor false).order = order := rfl
  refine ⟨summary, sealed, ?_⟩
  rw [build, hcreate]
  dsimp only
  rw [horderEq, hwrite, Except.bind, hclose]

end Exists

end BlockQuery.Index
