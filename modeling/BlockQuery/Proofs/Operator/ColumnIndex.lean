import BlockQuery.Proofs.Index.LongNames
import BlockQuery.Proofs.Operator.IndexScan

/-!
# Indexes of a column

An index that is built from a column of a file of records lists the rows of the
file, if the column holds nulls and values of one type.
-/

namespace BlockQuery

open Record (located keyAt)

section Keys

variable {rows : List Row} {position : ℕ} {type : DataType} {column : String} {ascending : Bool}
  {order : RowOrder}

/-- The keys with their places take no more bytes than the records. -/
theorem length_keys_le (hcolumn : Row.HaveColumn position type rows) (start : ℕ) :
    (((rows.zip (Record.offsets start rows)).map (keyAt position)).flatMap
      Index.encodeEntry).length ≤ (rows.flatMap Record.encode).length := by
  induction rows generalizing start with
  | nil => exact le_rfl
  | cons row rows ih =>
    obtain ⟨⟨d, hd, -⟩, hrest⟩ := List.forall_mem_cons.mp hcolumn
    have hkey : Row.encodedLength (row.select [position]) ≤ row.encodedLength := by
      have hmem : d ∈ row := List.mem_of_getElem? hd
      obtain ⟨front, back, rfl⟩ := List.append_of_mem hmem
      have hlength : ∀ (front back : Row),
          Row.encodedLength [d] ≤ Row.encodedLength (front ++ d :: back) := by
        intro front back
        induction front with
        | nil =>
          have hback := Row.two_le_encodedLength back
          rw [List.nil_append, Row.encodedLength_cons, Row.encodedLength_cons]
          exact Nat.add_le_add_left hback _
        | cons x front ih =>
          rw [List.cons_append, Row.encodedLength_cons]
          exact ih.trans (Nat.le_add_left _ _)
      rw [Row.select_singleton hd]
      exact hlength front back
    have hmore := ih hrest (start + (Record.encode row).length)
    have hentry : (Index.encodeEntry (keyAt position (row, start))).length ≤
        (Record.encode row).length := by
      rw [Index.length_encodeEntry, Record.length_encode]
      exact Nat.add_le_add_right hkey 8
    rw [Record.offsets, List.zip_cons_cons, List.map_cons, List.flatMap_cons, List.flatMap_cons,
      List.length_append, List.length_append]
    omega

theorem ofType_keys (hcolumn : Row.HaveColumn position type rows) :
    OfType type ((located rows).map (keyAt position)) := by
  intro e he
  obtain ⟨x, hx, rfl⟩ := List.mem_map.mp he
  obtain ⟨d, hd, htype⟩ := hcolumn x.1 (Record.mem_of_mem_located hx)
  exact ⟨d, Row.select_singleton hd, htype⟩

theorem typed_singleton (hkeys : order.keys = [⟨0, ascending, false⟩]) {d : Datum}
    (h : d = .null ∨ d.ComparesAs type) : order.Typed (fun _ => type) [d] := by
  intro key hkey x hvalue
  rw [hkeys, List.mem_singleton] at hkey
  rw [hkey] at hvalue
  rcases h with rfl | h
  · cases hvalue
  · cases d <;> cases hvalue <;> exact h

theorem typed_of_ofType {entries : List (Row × ℕ)} (h : OfType type entries)
    (hkeys : order.keys = [⟨0, ascending, false⟩]) :
    ∀ e ∈ entries, order.Typed (fun _ => type) e.1 := by
  intro e he
  obtain ⟨d, hd, htype⟩ := h e he
  rw [hd]
  exact typed_singleton hkeys (htype.imp_right Datum.comparesAs_of_type)

theorem storable_keys (hcolumn : Row.HaveColumn position type rows)
    (hfits : ∀ row ∈ rows, row.Fits) (hsize : (rows.flatMap Record.encode).length < 2 ^ 64) :
    ∀ e ∈ (located rows).map (keyAt position), Index.Storable e := by
  intro e he
  obtain ⟨x, hx, rfl⟩ := List.mem_map.mp he
  have hrow := Record.mem_of_mem_located hx
  obtain ⟨d, hd, -⟩ := hcolumn x.1 hrow
  obtain ⟨ys, -, hplace⟩ := Record.drop_of_mem_located hx
  have hvalue : d.Storable := (hfits x.1 hrow).storable.2 d (List.mem_of_getElem? hd)
  refine ⟨?_, lt_of_le_of_lt (by dsimp only [keyAt]; omega) hsize⟩
  dsimp only [keyAt]
  rw [Row.select_singleton hd]
  exact ⟨Nat.one_lt_two_pow (by decide), List.forall_mem_singleton.mpr hvalue⟩

theorem ofSpecs_singleton (column : String) (type : DataType) (ascending : Bool) :
    RowOrder.ofSpecs [⟨column, type⟩] [⟨column, ascending, false⟩] =
      .ok ⟨[⟨0, ascending, false⟩], [⟨column, ascending, false⟩]⟩ := by
  have hfind : Schema.find [⟨column, type⟩] column = .ok 0 := by
    apply Schema.find_of_findIdx?
    simp [List.findIdx?_cons]
  rw [RowOrder.ofSpecs, List.mapM_cons, RowOrder.resolve, hfind]
  rfl

/-- Sorted entries are those of the rows in some order. -/
theorem exists_listed (order : RowOrder) (rows : List Row) (position : ℕ) :
    ∃ listed : List (Row × ℕ), listed.Perm (located rows) ∧
      Index.sortEntries order ((located rows).map (keyAt position)) =
        listed.map (keyAt position) := by
  refine ⟨(located rows).mergeSort fun a b =>
    (order.compare (keyAt position a).1 (keyAt position b).1).isLE, List.mergeSort_perm _ _, ?_⟩
  exact (List.map_mergeSort (f := keyAt position) fun a _ b _ => rfl).symm

end Keys

section Filled

variable {disk made sealed : Disk} {path column : String} {type : DataType} {ascending : Bool}
  {loadFactor : ℕ} {rows : List Row} {position : ℕ} {w : Index.Writer}

theorem Index.Filled.keys_eq {entries : List (Row × ℕ)}
    (h : Filled disk path [⟨column, type⟩] [⟨column, ascending, false⟩] loadFactor entries w made) :
    w.order.keys = [⟨0, ascending, false⟩] := by
  have horder := h.order
  rw [h.schema_eq, h.specs_eq, ofSpecs_singleton] at horder
  rw [← Except.ok.inj horder]

theorem Index.Filled.sized_of_column
    (h : Filled disk path [⟨column, type⟩] [⟨column, ascending, false⟩] loadFactor
      (sortEntries w.order ((located rows).map (keyAt position))) w made)
    (hfactor : loadFactor < 2 ^ 32) (hcolumn : Row.HaveColumn position type rows)
    (hsize : (rows.flatMap Record.encode).length ≤ 2 ^ 62) : w.Sized := by
  apply h.sized hfactor
  rw [length_encode_sortEntries]
  exact (length_keys_le hcolumn 0).trans hsize

/-- The index opens and lists the rows of the file, unless the name is beyond the limit. -/
theorem Index.Filled.exists_covers
    (h : Filled disk path [⟨column, type⟩] [⟨column, ascending, false⟩] loadFactor
      (sortEntries w.order ((located rows).map (keyAt position))) w made)
    (hfactor : loadFactor < 2 ^ 32) (hcolumn : Row.HaveColumn position type rows)
    (hfits : ∀ row ∈ rows, row.Fits) (hsize : (rows.flatMap Record.encode).length ≤ 2 ^ 62)
    (hname : (Bytes.ofText column).length ≤ maxNameLength) (table : String) (data : Fragment) :
    ∃ r listed, Reader.ofContent path w.content = .ok r ∧
      IndexBinding.Covers ⟨table, column, data, r⟩ rows position listed ∧
        IndexBinding.ascending ⟨table, column, data, r⟩ = ascending := by
  have hsized := h.sized_of_column hfactor hcolumn hsize
  have hone : 1 ≤ 65535 := by decide
  have hwriter : w.Fits := h.fits hsized hone hone (List.forall_mem_singleton.mpr hname)
  obtain ⟨r, hread, hlists, hascending, hheader, hkeys⟩ := h.ofContent_sortEntries hwriter
    (typed_of_ofType (ofType_keys hcolumn) h.keys_eq)
    (storable_keys hcolumn hfits (lt_of_le_of_lt hsize (by decide)))
  obtain ⟨listed, hperm, hlisted⟩ := exists_listed w.order rows position
  have hdirection : (r.header.specs.head?.map (·.ascending)).getD true = ascending := by
    rw [hheader]
    change ((w.specs.map (SortSpec.named w.schema)).head?.map (·.ascending)).getD true = ascending
    rw [h.specs_eq, List.map_singleton, List.head?_singleton, Option.map_some, Option.getD_some,
      SortSpec.named]
    split <;> rfl
  refine ⟨r, listed, hread, ⟨hperm, ?_, ?_, ?_, ?_⟩, hdirection⟩
  · rwa [← hlisted]
  · rwa [← hlisted]
  · rw [IndexBinding.ascending, hdirection, hkeys]
    exact h.keys_eq
  · rw [hheader]
    exact congrArg List.length h.schema_eq

end Filled

/-- A column can be built into an index wherever a file can be made, whatever it is called. -/
theorem Index.exists_build_of_column {disk made : Disk} {path column : String} {file : OpenFile}
    {type : DataType} {rows : List Row} {position : ℕ} {loadFactor : UInt32}
    (hcolumn : Row.HaveColumn position type rows)
    (hsize : (rows.flatMap Record.encode).length ≤ 2 ^ 62)
    (hname : (Bytes.ofText column).length < 2 ^ 32) (hpositive : 1 ≤ loadFactor.toNat)
    (hfile : disk.create path = .ok (file, made)) (ascending : Bool) :
    ∃ summary sealed, build disk path [⟨column, type⟩] [⟨column, ascending, false⟩]
      loadFactor.toNat false ((located rows).map (keyAt position)) = (.ok summary, sealed) := by
  have hwidth : ∀ e ∈ (located rows).map (keyAt position), e.1.length = 1 := by
    intro e he
    obtain ⟨d, hd, -⟩ := ofType_keys hcolumn e he
    rw [hd]
    rfl
  apply exists_build hfile (List.cons_ne_nil _ _) (ofSpecs_singleton column type ascending)
    hpositive loadFactor.toNat_lt hwidth ((length_keys_le hcolumn 0).trans hsize)
  rw [List.flatMap_singleton, length_encodeColumn, List.length_singleton]
  dsimp only
  omega

/-- A built index opens just if the name of its column is within the limit. -/
theorem Index.opens_iff_of_build {disk sealed : Disk} {path column : String} {type : DataType}
    {ascending verifyOrder : Bool} {loadFactor : UInt32} {rows : List Row} {position : ℕ}
    {summary : Summary}
    (h : build disk path [⟨column, type⟩] [⟨column, ascending, false⟩] loadFactor.toNat verifyOrder
      ((located rows).map (keyAt position)) = (.ok summary, sealed))
    (hcolumn : Row.HaveColumn position type rows) (hfits : ∀ row ∈ rows, row.Fits)
    (hsize : (rows.flatMap Record.encode).length ≤ 2 ^ 62) :
    (∃ r, Reader.open? sealed path = .ok r) ↔ (Bytes.ofText column).length ≤ maxNameLength := by
  obtain ⟨w, made, hfilled, hclose⟩ := exists_filled_of_build h
  have hfactor : loadFactor.toNat < 2 ^ 32 := loadFactor.toNat_lt
  have hsized := hfilled.sized_of_column hfactor hcolumn hsize
  constructor
  · rintro ⟨r, hopen⟩
    exact hfilled.name_le_of_open? hsized hclose hopen
  · intro hname
    obtain ⟨r, listed, hr, -⟩ :=
      hfilled.exists_covers hfactor hcolumn hfits hsize hname "" ⟨"", ""⟩
    exact ⟨r, by rw [hfilled.open?_close hclose, hr]⟩

/-- Whether an index was built from a column of a file with the given rows, and opened. -/
def IndexBinding.BuiltFrom (b : IndexBinding) (rows : List Row) (position : ℕ)
    (type : DataType) : Prop :=
  ∃ (disk sealed : Disk) (path : String) (ascending : Bool) (loadFactor : UInt32)
    (verifyOrder : Bool) (entries : List (Row × ℕ)) (summary : Index.Summary),
    RowReader.open? disk b.data.path =
        .ok (.ofContent b.data.path (rows.flatMap Record.encode)) ∧
      disk.readColumn b.data.path position = .ok entries ∧
      Index.build disk path [⟨b.column, type⟩] [⟨b.column, ascending, false⟩] loadFactor.toNat
        verifyOrder entries = (.ok summary, sealed) ∧
      Index.Reader.open? sealed path = .ok b.reader

/-- An index built from a column lists the rows of the file. -/
theorem IndexBinding.BuiltFrom.covers {b : IndexBinding} {rows : List Row} {position : ℕ}
    {type : DataType} (h : b.BuiltFrom rows position type)
    (hcolumn : Row.HaveColumn position type rows) (hfits : ∀ row ∈ rows, row.Fits)
    (hsize : (rows.flatMap Record.encode).length ≤ 2 ^ 62) :
    ∃ listed, b.Covers rows position listed := by
  obtain ⟨disk, sealed, path, ascending, loadFactor, verifyOrder, entries, summary, hdata, hread,
    hbuild, hopen⟩ := h
  rw [Disk.readColumn_of_open hfits hdata] at hread
  cases hread
  obtain ⟨w, made, hfilled, hclose⟩ := Index.exists_filled_of_build hbuild
  have hfactor : loadFactor.toNat < 2 ^ 32 := loadFactor.toNat_lt
  have hsized := hfilled.sized_of_column hfactor hcolumn hsize
  have hname := hfilled.name_le_of_open? hsized hclose hopen
  rw [hfilled.open?_close hclose] at hopen
  obtain ⟨r, listed, hr, hcovers, -⟩ :=
    hfilled.exists_covers hfactor hcolumn hfits hsize hname b.table b.data
  rw [hr] at hopen
  cases hopen
  exact ⟨listed, hcovers⟩

/-- A column can be indexed in either direction wherever a file can be made. -/
theorem IndexBinding.exists_builtFrom {disk made : Disk} {data : Fragment} {rows : List Row}
    {position : ℕ} {type : DataType} {path column : String} {file : OpenFile}
    (hdata : RowReader.open? disk data.path =
      .ok (.ofContent data.path (rows.flatMap Record.encode)))
    (hcolumn : Row.HaveColumn position type rows) (hfits : ∀ row ∈ rows, row.Fits)
    (hsize : (rows.flatMap Record.encode).length ≤ 2 ^ 62)
    (hname : (Bytes.ofText column).length ≤ Index.maxNameLength)
    (hfile : disk.create path = .ok (file, made)) (table : String) (ascending : Bool) :
    ∃ r, IndexBinding.BuiltFrom ⟨table, column, data, r⟩ rows position type ∧
      IndexBinding.ascending ⟨table, column, data, r⟩ = ascending := by
  have hfactor : (1 : UInt32).toNat < 2 ^ 32 := by decide
  have hlimit : Index.maxNameLength < 2 ^ 32 := by decide
  obtain ⟨summary, sealed, hbuild⟩ := Index.exists_build_of_column hcolumn hsize
    (hname.trans_lt hlimit) (show 1 ≤ (1 : UInt32).toNat from by decide) hfile ascending
  obtain ⟨w, made, hfilled, hclose⟩ := Index.exists_filled_of_build hbuild
  obtain ⟨r, listed, hr, -, hdirection⟩ :=
    hfilled.exists_covers hfactor hcolumn hfits hsize hname table data
  have hopen := hfilled.open?_close hclose
  rw [hr] at hopen
  exact ⟨r, ⟨disk, sealed, path, ascending, 1, false, _, summary, hdata,
    Disk.readColumn_of_open hfits hdata position, hbuild, hopen⟩, hdirection⟩

end BlockQuery
