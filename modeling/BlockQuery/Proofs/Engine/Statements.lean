import Mathlib.Logic.Relation
import BlockQuery.Proofs.Engine.Effects
import BlockQuery.Proofs.Operator.TypedKeys

/-!
# What statements keep

Tables are created, filled and indexed in any order, starting with an empty
directory.  Then the file of each table holds rows of its schema, and each index
lists the rows that its table has: rows are loaded before the first index is
created, and no file is used twice.
-/

namespace BlockQuery

/-! ## Names of files -/

def tableFile (table : String) : String := table ++ ".rows"

def indexFile (index : String) : String := index ++ ".idx"

theorem isName_append {name suffix : String} (hname : isFileName name = true)
    (hsuffix : '/' ∉ suffix.toList) (hlong : 3 ≤ suffix.toList.length) :
    Path.IsName (name ++ suffix) := by
  have hlength : 3 ≤ (name ++ suffix).toList.length := by
    rw [String.toList_append, List.length_append]
    omega
  have hne : ∀ short : String, short.toList.length < 3 → name ++ suffix ≠ short := by
    intro short hshort heq
    rw [heq] at hlength
    omega
  refine ⟨?_, hne "" (by decide), hne "." (by decide), hne ".." (by decide)⟩
  rw [isFileName, Bool.and_eq_true, Bool.not_eq_true', List.any_eq_false] at hname
  rw [String.toList_append, List.mem_append]
  rintro (hmem | hmem)
  · exact hname.2 '/' hmem rfl
  · exact hsuffix hmem

theorem isName_tableFile {table : String} (h : isFileName table = true) :
    Path.IsName (tableFile table) := isName_append h (by decide) (by decide)

theorem isName_indexFile {index : String} (h : isFileName index = true) :
    Path.IsName (indexFile index) := isName_append h (by decide) (by decide)

theorem getLast?_tableFile (table : String) : (tableFile table).toList.getLast? ≠ some '.' := by
  simp [tableFile]

theorem append_injective (suffix : String) : Function.Injective (· ++ suffix : String → String) := by
  intro a b h
  have hlist := congrArg String.toList h
  rw [String.toList_append, String.toList_append] at hlist
  exact String.toList_injective (List.append_cancel_right hlist)

theorem tableFile_injective : Function.Injective tableFile := append_injective ".rows"

theorem indexFile_injective : Function.Injective indexFile := append_injective ".idx"

theorem tableFile_ne_indexFile (table index : String) : tableFile table ≠ indexFile index := by
  intro h
  have hlast := congrArg (fun s : String => s.toList.getLast?) h
  simp [tableFile, indexFile] at hlast

/-! ## Rows of a table -/

/-- Whether rows can be stored under a schema: each value is null or of the type of its column, and
neither a record nor the whole file is too large. -/
structure Schema.Admits (schema : Schema) (rows : List Row) : Prop where
  values : ∀ row ∈ rows, ∀ (i : ℕ) (c : Column) (d : Datum), schema[i]? = some c →
    row[i]? = some d → d = .null ∨ d.type? = some c.type
  records : ∀ row ∈ rows, (Record.encode row).length < 2 ^ 32
  file : (rows.flatMap Record.encode).length ≤ 2 ^ 62

/-- Whether the file of a table holds some rows of its schema. -/
structure TableEntry.Holds (t : TableEntry) (disk : Disk) (rows : List Row) : Prop where
  opens : RowReader.open? disk t.path = .ok (.ofContent t.path (rows.flatMap Record.encode))
  wide : ∀ row ∈ rows, row.length = t.schema.length
  admits : t.schema.Admits rows

theorem TableEntry.holds_nil {t : TableEntry} {disk : Disk} {number : ℕ}
    (h : disk.openEntry t.path = .ok (.file number [])) : t.Holds disk [] := by
  have hnone : ∀ {q : Row → Prop}, ∀ row ∈ ([] : List Row), q row :=
    fun _ hrow => absurd hrow List.not_mem_nil
  exact ⟨RowReader.open?_of_openEntry h, hnone, hnone, hnone, Nat.zero_le _⟩

namespace TableEntry.Holds

variable {t : TableEntry} {disk : Disk} {rows : List Row}

theorem fits (h : t.Holds disk rows) (hcolumns : t.schema.length ≤ 65535) :
    ∀ row ∈ rows, row.Fits := by
  intro row hrow
  have hrecord := h.admits.records row hrow
  rw [Record.length_encode] at hrecord
  refine ⟨?_, hrecord⟩
  rw [h.wide row hrow]
  exact Nat.lt_succ_of_le hcolumns

theorem haveColumn (h : t.Holds disk rows) {i : ℕ} {c : Column} (hget : t.schema[i]? = some c) :
    Row.HaveColumn i c.type rows := by
  intro row hrow
  have hlt : i < row.length := by
    rw [h.wide row hrow]
    exact (List.getElem?_eq_some_iff.mp hget).1
  have hvalue := List.getElem?_eq_getElem hlt
  exact ⟨row[i], hvalue, h.admits.values row hrow i c row[i] hget hvalue⟩

/-- An index that is built from a column opens just if the name of the column is within the limit,
and then lists the rows. -/
theorem covers_of_build (h : t.Holds disk rows) (hcolumns : t.schema.length ≤ 65535) {position : ℕ}
    {c : Column} (hget : t.schema[position]? = some c) {entries : List (Row × ℕ)}
    (hread : disk.readColumn t.path position = .ok entries) {path column : String}
    {ascending verifyOrder : Bool} {loadFactor : UInt32} {summary : Index.Summary} {sealed : Disk}
    (hbuild : Index.build disk path [⟨column, c.type⟩] [⟨column, ascending, false⟩] loadFactor.toNat
      verifyOrder entries = (.ok summary, sealed)) (table : String) :
    ((∃ r, Index.Reader.open? sealed path = .ok r) ↔
      (Bytes.ofText column).length ≤ Index.maxNameLength) ∧
    ∀ r, Index.Reader.open? sealed path = .ok r →
      ∃ listed, IndexBinding.Covers ⟨table, column, ⟨table, t.path⟩, r⟩ rows position listed := by
  have hfits := h.fits hcolumns
  have hcolumn := h.haveColumn hget
  rw [Disk.readColumn_of_open hfits h.opens] at hread
  cases hread
  refine ⟨Index.opens_iff_of_build hbuild hcolumn hfits h.admits.file, fun r hr => ?_⟩
  exact IndexBinding.BuiltFrom.covers ⟨disk, sealed, path, ascending, loadFactor, verifyOrder, _,
    summary, h.opens, Disk.readColumn_of_open hfits h.opens position, hbuild, hr⟩ hcolumn hfits
    h.admits.file

end TableEntry.Holds

/-- Whether a plan, if it creates a table, leaves the place of the file to the engine and gives the
columns names without qualifiers. -/
def Plan.Declares : Plan → Prop
  | .root child => child.Declares
  | .createTable _ schema _ path =>
    path = none ∧ schema.length ≤ 65535 ∧ ∀ c ∈ schema, '.' ∉ c.name.toList
  | _ => True

/-! ## What an engine keeps -/

namespace Engine

/-- What is known of a table of an engine.  Its file may be missing, if it could not be made. -/
structure HasTable (e : Engine) (t : TableEntry) : Prop where
  isFileName : isFileName t.name = true
  path : t.path = e.config.tablePath t.name
  columns : t.schema.length ≤ 65535
  names : ∀ c ∈ t.schema, '.' ∉ c.name.toList
  rows : ∀ entry, e.host.disk.openEntry t.path = .ok entry → ∃ rows, t.Holds e.host.disk rows

/-- What is known of an index of an engine: it opens just if the name of its column is within the
limit, and then lists the rows of its table. -/
structure HasIndex (e : Engine) (x : IndexEntry) : Prop where
  isFileName : isFileName x.name = true
  path : x.path = e.config.indexPath x.name
  lists : ∃ t rows position, e.catalog.table? x.table = some t ∧ t.Holds e.host.disk rows ∧
    t.schema.find x.column = .ok position ∧
    ((∃ r, Index.Reader.open? e.host.disk x.path = .ok r) ↔
      (Bytes.ofText x.column).length ≤ Index.maxNameLength) ∧
    ∀ r, Index.Reader.open? e.host.disk x.path = .ok r →
      ∃ listed, IndexBinding.Covers ⟨x.table, x.column, ⟨x.table, t.path⟩, r⟩ rows position listed

/-- What an engine keeps in its directory. -/
structure Keeps (e : Engine) (place : Place) : Prop where
  leadsTo : e.host.disk.LeadsTo e.config.dataDir place
  tables : ∀ name t, e.catalog.table? name = some t → e.HasTable t
  indexes : ∀ x ∈ e.catalog.indexes, e.HasIndex x
  free : ∀ name, e.catalog.table? name = none →
    e.host.disk.get? (place ++ [tableFile name]) = none
  flat : ∀ child, e.host.disk.get? (place ++ [child]) ≠ some .directory

section Frame

variable {e after : Engine} {place : Place} {file : String} {t : TableEntry} {x : IndexEntry}
  (hdir : e.host.disk.LeadsTo e.config.dataDir place)
  (hdiffer : Disk.DifferAt (place ++ [file]) e.host.disk after.host.disk)
include hdir hdiffer

theorem HasTable.openEntry_congr (h : e.HasTable t) (hfile : tableFile t.name ≠ file)
    {entry : Entry} : after.host.disk.openEntry t.path = .ok entry ↔
      e.host.disk.openEntry t.path = .ok entry := by
  rw [h.path]
  exact hdir.openEntry_join_congr hdiffer (isName_tableFile h.isFileName) hfile

theorem HasTable.holds (h : e.HasTable t) (hfile : tableFile t.name ≠ file) {rows : List Row}
    (hrows : t.Holds e.host.disk rows) : t.Holds after.host.disk rows := by
  refine ⟨?_, hrows.wide, hrows.admits⟩
  exact (RowReader.open?_congr fun entry => h.openEntry_congr hdir hdiffer hfile).mpr
    hrows.opens

variable (hconfig : after.config = e.config)
include hconfig

/-- A table is kept where another file changes. -/
theorem HasTable.frame (h : e.HasTable t) (hfile : tableFile t.name ≠ file) : after.HasTable t where
  isFileName := h.isFileName
  path := by rw [hconfig]; exact h.path
  columns := h.columns
  names := h.names
  rows entry hentry := by
    obtain ⟨rows, hrows⟩ := h.rows entry ((h.openEntry_congr hdir hdiffer hfile).mp hentry)
    exact ⟨rows, h.holds hdir hdiffer hfile hrows⟩

/-- An index is kept where neither its file nor that of its table changes. -/
theorem HasIndex.frame (h : e.HasIndex x) (hfile : indexFile x.name ≠ file)
    (htable : ∀ t, e.catalog.table? x.table = some t →
      e.HasTable t ∧ tableFile t.name ≠ file ∧ after.catalog.table? x.table = some t) :
    after.HasIndex x := by
  obtain ⟨t, rows, position, ht, hrows, hfind, hopens, hcovers⟩ := h.lists
  obtain ⟨hhas, hother, hafter⟩ := htable t ht
  have hentry : ∀ entry, after.host.disk.openEntry x.path = .ok entry ↔
      e.host.disk.openEntry x.path = .ok entry := by
    intro entry
    rw [h.path]
    exact hdir.openEntry_join_congr hdiffer (isName_indexFile h.isFileName) hfile
  refine ⟨h.isFileName, by rw [hconfig]; exact h.path, t, rows, position, hafter,
    hhas.holds hdir hdiffer hother hrows, hfind, ?_, ?_⟩
  · rw [← hopens]
    exact exists_congr fun r => Index.Reader.open?_congr hentry
  · intro r hr
    exact hcovers r ((Index.Reader.open?_congr hentry).mp hr)

end Frame

/-- What is kept where the file of one table or index changes: all but this table or index. -/
theorem Keeps.frame {e after : Engine} {place : Place} {file : String} (h : e.Keeps place)
    (hconfig : after.config = e.config)
    (hdiffer : Disk.DifferAt (place ++ [file]) e.host.disk after.host.disk) :
    (∀ name t, e.catalog.table? name = some t → tableFile name ≠ file → after.HasTable t) ∧
    (∀ x ∈ e.catalog.indexes, indexFile x.name ≠ file → tableFile x.table ≠ file →
      after.catalog.table? x.table = e.catalog.table? x.table → after.HasIndex x) := by
  constructor
  · intro name t ht hfile
    rw [← Catalog.name_of_table? ht] at hfile
    exact (h.tables name t ht).frame h.leadsTo hdiffer hconfig hfile
  · intro x hx hindex htable hsame
    apply (h.indexes x hx).frame h.leadsTo hdiffer hconfig hindex
    intro t ht
    rw [← Catalog.name_of_table? ht] at htable
    exact ⟨h.tables _ t ht, htable, hsame.trans ht⟩

/-! ## Creating tables -/

section CreateTable

variable {e : Engine} {place : Place} {t : TableEntry}

theorem tableEntry_eq_ok {table : String} {schema : Schema} {store : StoreType}
    (h : e.tableEntry table schema store none = .ok t) :
    isFileName table = true ∧
      t = { TableEntry.new table schema (e.config.tablePath table) with store := store } := by
  rw [tableEntry, checkName] at h
  split at h
  next hname =>
    cases h
    exact ⟨hname, rfl⟩
  next => cases h

/-- A file is made where there is none, or nothing happens. -/
theorem ensureFile_of_free {disk made : Disk} {dir child : String}
    {result : Except StorageError Unit} (hdir : disk.LeadsTo dir place)
    (hchild : Path.IsName child) (hlast : child.toList.getLast? ≠ some '.')
    (hfree : disk.get? (place ++ [child]) = none)
    (h : ensureFile disk (Path.join dir child) = (result, made)) :
    Disk.DifferAt (place ++ [child]) disk made ∧
      ∀ entry, made.openEntry (Path.join dir child) = .ok entry → ∃ number, entry = .file number [] := by
  have hmissing : ∀ entry, disk.openEntry (Path.join dir child) ≠ .ok entry := by
    intro entry hentry
    have hget := hdir.openEntry_eq_ok hchild hentry
    rw [hfree] at hget
    cases hget
  have hexists : disk.pathExists (Path.join dir child) = false := by
    rw [Disk.pathExists]
    cases hentry : disk.openEntry (Path.join dir child) with
    | error e => rfl
    | ok entry => exact absurd hentry (hmissing entry)
  have hdiffer := hdir.differAt_storeRows hchild hlast []
  rw [ensureFile, hexists, if_neg Bool.false_ne_true] at h
  rcases hstore : disk.storeRows (Path.join dir child) [] with ⟨fault | size, stored⟩
  · rw [hstore] at h
    cases h
    rw [hdir.eq_of_storeRows_error hchild hlast hstore]
    exact ⟨Disk.DifferAt.refl _ _, fun entry hentry => absurd hentry (hmissing entry)⟩
  · rw [hstore] at h hdiffer
    cases h
    obtain ⟨number, hentry⟩ := Disk.openEntry_storeRows hstore
    refine ⟨hdiffer, fun entry hother => ⟨number, ?_⟩⟩
    rw [hentry] at hother
    cases hother
    rfl

/-- A table is added with an empty file, or with none. -/
theorem Keeps.addTable {after : Engine} (h : e.Keeps place) (hconfig : after.config = e.config)
    (hadd : e.catalog.addTable t = .ok after.catalog) (hname : isFileName t.name = true)
    (hpath : t.path = e.config.tablePath t.name) (hcolumns : t.schema.length ≤ 65535)
    (hnames : ∀ c ∈ t.schema, '.' ∉ c.name.toList)
    (hdiffer : Disk.DifferAt (place ++ [tableFile t.name]) e.host.disk after.host.disk)
    (hfile : ∀ entry, after.host.disk.openEntry t.path = .ok entry →
      ∃ number, entry = .file number []) : after.Keeps place := by
  obtain ⟨hnew, hindexes, htables⟩ := Catalog.table?_of_addTable hadd
  obtain ⟨hothers, hothersIndexes⟩ := h.frame hconfig hdiffer
  have hne : ∀ {name}, name ≠ t.name → tableFile name ≠ tableFile t.name :=
    fun hne heq => hne (tableFile_injective heq)
  refine ⟨?_, ?_, ?_, ?_, fun child hdir => h.flat child ((hdiffer.sameDirectories _).mpr hdir)⟩
  · rw [hconfig]
    exact h.leadsTo.congr hdiffer.sameDirectories
  · intro name t' ht'
    rw [htables] at ht'
    split at ht'
    next heq =>
      cases ht'
      refine ⟨hname, by rw [hconfig]; exact hpath, hcolumns, hnames, ?_⟩
      intro entry hentry
      obtain ⟨number, rfl⟩ := hfile entry hentry
      exact ⟨[], TableEntry.holds_nil hentry⟩
    next hother => exact hothers name t' ht' (hne hother)
  · intro x hx
    rw [hindexes] at hx
    have hother : x.table ≠ t.name := by
      obtain ⟨t', -, -, ht', -⟩ := (h.indexes x hx).lists
      intro heq
      rw [heq, hnew] at ht'
      cases ht'
    exact hothersIndexes x hx (tableFile_ne_indexFile _ _).symm (hne hother)
      ((htables x.table).trans (if_neg hother))
  · intro name hnone
    rw [htables] at hnone
    split at hnone
    next => cases hnone
    next hother =>
      rw [hdiffer.others _ fun heq => hne hother (List.singleton_inj.mp (List.append_cancel_left heq))]
      exact h.free name hnone

theorem Keeps.entered {after : Engine} {made : Except StorageError Unit} (h : e.Keeps place)
    (hentered : Entered e t made after) (hname : isFileName t.name = true)
    (hpath : t.path = e.config.tablePath t.name) (hcolumns : t.schema.length ≤ 65535)
    (hnames : ∀ c ∈ t.schema, '.' ∉ c.name.toList) : after.Keeps place := by
  have hfree := h.free t.name (Catalog.table?_of_addTable hentered.catalog).1
  have hjoin : t.path = Path.join e.config.dataDir (tableFile t.name) := hpath
  have hensure := hentered.file
  rw [hjoin] at hensure
  obtain ⟨hdiffer, hfile⟩ := ensureFile_of_free h.leadsTo (isName_tableFile hname)
    (getLast?_tableFile t.name) hfree hensure
  rw [← hjoin] at hfile
  exact h.addTable hentered.config hentered.catalog hname hpath hcolumns hnames hdiffer hfile

theorem entryOf_eq_ok {plan : Plan} (h : e.entryOf plan = .ok t) (hplan : plan.Declares) :
    isFileName t.name = true ∧ t.path = e.config.tablePath t.name ∧ t.schema.length ≤ 65535 ∧
      ∀ c ∈ t.schema, '.' ∉ c.name.toList := by
  fun_induction entryOf e plan with
  | case1 child ih => exact ih h hplan
  | case2 table schema store path =>
    obtain ⟨rfl, hcolumns, hnames⟩ := hplan
    obtain ⟨hname, rfl⟩ := tableEntry_eq_ok h
    exact ⟨hname, rfl, hcolumns, hnames⟩
  | case3 other => cases h

theorem Keeps.createTable (h : e.Keeps place) (plan : Plan) (hplan : plan.Declares) :
    (e.createTable plan).2.Keeps place := by
  have henter : ∀ {t made after}, e.entryOf plan = .ok t → Entered e t made after →
      after.Keeps place := by
    intro t made after hentry hentered
    obtain ⟨hname, hpath, hcolumns, hnames⟩ := entryOf_eq_ok hentry hplan
    exact h.entered hentered hname hpath hcolumns hnames
  have hcreates := e.createsTable plan
  generalize (e.createTable plan).1 = result, (e.createTable plan).2 = after at hcreates ⊢
  cases hcreates with
  | refused => exact h
  | failed hentry hentered => exact henter hentry hentered
  | created hentry hentered => exact henter hentry hentered

end CreateTable

/-! ## Loading rows -/

section FillTable

variable {e after : Engine} {place : Place} {t : TableEntry} {table : String} {rows : List Row}

/-- Rows take the place of those of a table that has no indexes. -/
theorem Keeps.setRows (h : e.Keeps place) (hconfig : after.config = e.config)
    {size : ℕ} {stats : TableStats}
    (hload : e.loadable table rows = .ok t) (hadmits : t.schema.Admits rows)
    (hstore : e.host.disk.storeRows t.path rows = (.ok size, after.host.disk))
    (hstats : e.catalog.updateStats table stats = .ok after.catalog) : after.Keeps place := by
  obtain ⟨htable, hindexes, hwide⟩ := loadable_eq_ok hload
  obtain ⟨hindexesEq, htables⟩ := Catalog.table?_of_updateStats hstats
  have hhas := h.tables table t htable
  have hname : t.name = table := Catalog.name_of_table? htable
  have hjoin : t.path = Path.join e.config.dataDir (tableFile t.name) := hhas.path
  have hdiffer := h.leadsTo.differAt_storeRows (isName_tableFile hhas.isFileName)
    (getLast?_tableFile t.name) rows
  rw [← hjoin, hstore, hname] at hdiffer
  obtain ⟨hothers, hothersIndexes⟩ := h.frame hconfig hdiffer
  have hne : ∀ {name}, name ≠ table → tableFile name ≠ tableFile table :=
    fun hne heq => hne (tableFile_injective heq)
  have hsame : ∀ {other}, other ≠ table →
      after.catalog.table? other = e.catalog.table? other :=
    fun hother => Catalog.table?_of_updateStats_ne hstats hother
  refine ⟨?_, ?_, ?_, ?_, fun child hdir => h.flat child ((hdiffer.sameDirectories _).mpr hdir)⟩
  · rw [hconfig]
    exact h.leadsTo.congr hdiffer.sameDirectories
  · intro name t' ht'
    rcases eq_or_ne name table with rfl | hother
    · rw [htables, htable, Option.map_some, if_pos (by rw [hname, beq_self_eq_true])] at ht'
      cases ht'
      obtain ⟨number, hentry⟩ := Disk.openEntry_storeRows hstore
      refine ⟨hhas.isFileName, by rw [hconfig]; exact hhas.path, hhas.columns, hhas.names, ?_⟩
      exact fun _ _ => ⟨rows, RowReader.open?_of_openEntry hentry, hwide, hadmits⟩
    · rw [hsame hother] at ht'
      exact hothers name t' ht' (hne hother)
  · intro x hx
    rw [hindexesEq] at hx
    have hother := hindexes x hx
    exact hothersIndexes x hx (tableFile_ne_indexFile _ _).symm (hne hother) (hsame hother)
  · intro name hnone
    have hother : name ≠ table := by
      rintro rfl
      rw [htables, htable] at hnone
      cases hnone
    rw [hdiffer.others _ fun heq => hne hother (List.singleton_inj.mp (List.append_cancel_left heq))]
    rw [hsame hother] at hnone
    exact h.free name hnone

theorem Keeps.fillTable (h : e.Keeps place)
    (hadmits : ∀ t, e.catalog.table? table = some t → t.schema.Admits rows) :
    (e.fillTable table rows).2.Keeps place := by
  have hfills := e.fillsTable table rows
  generalize (e.fillTable table rows).1 = result, (e.fillTable table rows).2 = after at hfills ⊢
  cases hfills with
  | refused => exact h
  | failed hload hstore =>
    have hhas := h.tables table _ (loadable_eq_ok hload).1
    rw [hhas.path] at hstore
    rw [h.leadsTo.eq_of_storeRows_error (isName_tableFile hhas.isFileName) (getLast?_tableFile _)
      hstore]
    exact h
  | filled hload hconfig hstore hstats =>
    exact h.setRows hconfig hload (hadmits _ (loadable_eq_ok hload).1) hstore hstats

end FillTable

/-! ## Creating indexes -/

section CreateIndex

variable {e after : Engine} {place : Place} {name table column : String} {ascending : Bool}
  {task : IndexTask}

/-- Tables and indexes are kept where the file of a new index changes. -/
theorem Keeps.changeIndexFile (h : e.Keeps place) (hconfig : after.config = e.config)
    (htables : after.catalog.tables = e.catalog.tables)
    (hdiffer : Disk.DifferAt (place ++ [indexFile name]) e.host.disk after.host.disk)
    (hindexes : ∀ x ∈ after.catalog.indexes,
      x ∈ e.catalog.indexes ∧ x.name ≠ name ∨ after.HasIndex x) : after.Keeps place := by
  obtain ⟨hothers, hothersIndexes⟩ := h.frame hconfig hdiffer
  have hsame : ∀ other, after.catalog.table? other = e.catalog.table? other := by
    intro other
    rw [Catalog.table?, htables]
    rfl
  refine ⟨?_, ?_, ?_, ?_, fun child hdir => h.flat child ((hdiffer.sameDirectories _).mpr hdir)⟩
  · rw [hconfig]
    exact h.leadsTo.congr hdiffer.sameDirectories
  · intro other t ht
    rw [hsame] at ht
    exact hothers other t ht (tableFile_ne_indexFile _ _)
  · intro x hx
    rcases hindexes x hx with ⟨hold, hne⟩ | hnew
    · exact hothersIndexes x hold (fun heq => hne (indexFile_injective heq))
        (tableFile_ne_indexFile _ _) (hsame _)
    · exact hnew
  · intro other hnone
    rw [hsame] at hnone
    rw [hdiffer.others _ fun heq => tableFile_ne_indexFile other name
      (List.singleton_inj.mp (List.append_cancel_left heq))]
    exact h.free other hnone

/-- An index that was built lists the rows of its table, if it opens. -/
theorem Tasked.hasIndex (h : e.Keeps place) (htask : Tasked e name table column ascending task)
    (hconfig : after.config = e.config) (htables : after.catalog.tables = e.catalog.tables)
    (hdiffer : Disk.DifferAt (place ++ [indexFile name]) e.host.disk after.host.disk)
    {entries : List (Row × ℕ)} {summary : Index.Summary}
    (hread : e.host.disk.readColumn task.table.path task.position = .ok entries)
    (hbuild : Index.build e.host.disk (e.config.indexPath name) [⟨column, task.type⟩]
      [⟨column, ascending, false⟩] e.config.loadFactor.toNat e.config.verifyOrder entries =
        (.ok summary, after.host.disk)) : after.HasIndex task.entry := by
  have hhas := h.tables table task.table htask.registered
  have hname : task.table.name = table := Catalog.name_of_table? htask.registered
  obtain ⟨c, hget, htype⟩ := htask.typed
  obtain ⟨rows, hrows⟩ : ∃ rows, task.table.Holds e.host.disk rows := by
    obtain ⟨r, hopen, -⟩ := Except.bind_eq_ok.mp hread
    cases hentry : e.host.disk.openEntry task.table.path with
    | error fault =>
      rw [RowReader.open?, hentry] at hopen
      cases hopen
    | ok entry => exact hhas.rows entry hentry
  rw [← htype] at hbuild
  have hafter := hhas.holds h.leadsTo hdiffer (tableFile_ne_indexFile _ _) hrows
  rw [htask.entry]
  obtain ⟨hopens, hcovers⟩ := hrows.covers_of_build hhas.columns hget hread hbuild table
  refine ⟨htask.isFileName, by rw [hconfig]; rfl, task.table, rows, task.position, ?_, hafter,
    htask.find, hopens, hcovers⟩
  rw [Catalog.table?, htables]
  exact htask.registered

theorem Keeps.createIndex (h : e.Keeps place) (name table column : String) (ascending : Bool) :
    (e.createIndex name table column ascending).2.Keeps place := by
  have hdiffer : ∀ {task : IndexTask} {after : Engine}, Tasked e name table column ascending task →
      Disk.Wrote e.host.disk (e.config.indexPath name) after.host.disk →
      Disk.DifferAt (place ++ [indexFile name]) e.host.disk after.host.disk :=
    fun htask hwrote => hwrote.differAt h.leadsTo (isName_indexFile htask.isFileName)
  have hcreates := e.createsIndex name table column ascending
  generalize (e.createIndex name table column ascending).1 = result,
    (e.createIndex name table column ascending).2 = after at hcreates ⊢
  cases hcreates with
  | refused => exact h
  | failed _ hchecked hconfig hcatalog hwrote =>
    have htask := indexTask_eq_ok hchecked
    refine h.changeIndexFile hconfig (congrArg Catalog.tables hcatalog) (hdiffer htask hwrote) ?_
    intro x hx
    rw [hcatalog] at hx
    exact Or.inl ⟨hx, htask.fresh x hx⟩
  | created hchecked hconfig hcatalog hread hbuild hwrote =>
    have htask := indexTask_eq_ok hchecked
    have hdiffer := hdiffer htask hwrote
    have htables : after.catalog.tables = e.catalog.tables := by rw [hcatalog]
    refine h.changeIndexFile hconfig htables hdiffer ?_
    intro x hx
    rw [hcatalog] at hx
    rcases List.mem_append.mp hx with hold | hnew
    · exact Or.inl ⟨hold, htask.fresh x hold⟩
    · rw [List.mem_singleton.mp hnew]
      exact Or.inr (htask.hasIndex h hconfig htables hdiffer hread hbuild)

end CreateIndex

/-! ## Any order of statements -/

/-- A statement that changes what an engine keeps.  It may be refused, or fail. -/
inductive Step : Engine → Engine → Prop where
  | createTable (e : Engine) (plan : Plan) (h : plan.Declares) : Step e (e.createTable plan).2
  | fillTable (e : Engine) (table : String) (rows : List Row)
    (h : ∀ t, e.catalog.table? table = some t → t.schema.Admits rows) :
    Step e (e.fillTable table rows).2
  | createIndex (e : Engine) (name table column : String) (ascending : Bool) :
    Step e (e.createIndex name table column ascending).2

theorem Keeps.step {e after : Engine} {place : Place} (h : e.Keeps place) (hstep : Step e after) :
    after.Keeps place := by
  cases hstep with
  | createTable plan hplan => exact h.createTable plan hplan
  | fillTable table rows hadmits => exact h.fillTable hadmits
  | createIndex name table column ascending => exact h.createIndex name table column ascending

/-- Nothing is kept at the start. -/
theorem keeps_start {config : Config} {host : Host} {place : Place}
    (hdir : host.disk.LeadsTo config.dataDir place)
    (hempty : ∀ child, host.disk.get? (place ++ [child]) = none) :
    (start config host).Keeps place where
  leadsTo := hdir
  tables _ _ h := nomatch h
  indexes _ h := nomatch h
  free name _ := hempty (tableFile name)
  flat child hdir := nomatch (hempty child).symm.trans hdir

theorem Keeps.run {e after : Engine} {place : Place} (h : e.Keeps place)
    (hrun : Relation.ReflTransGen Step e after) : after.Keeps place := by
  induction hrun with
  | refl => exact h
  | tail _ hstep ih => exact ih.step hstep

end Engine

end BlockQuery
