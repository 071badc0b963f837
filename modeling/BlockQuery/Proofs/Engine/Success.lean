import BlockQuery.Proofs.Engine.Statements

/-!
# Statements that succeed

A table can be created, filled and indexed if its names can be those of files.
An index is created under any name of its column, however long.
-/

namespace BlockQuery

/-- Whether a file of the data directory can be asked for by its name. -/
structure Config.CanName (config : Config) (file : String) : Prop where
  small : file.utf8ByteSize ≤ Path.maxNameLength
  check : Path.check (Path.join config.dataDir file) = .ok ()

namespace Engine

variable {e : Engine} {place : Place} {t : TableEntry} {table name column : String}
  {schema : Schema} {rows : List Row} {position : ℕ}

/-- Rows can be stored as the file of any table. -/
theorem Keeps.exists_storeRows (h : e.Keeps place) (hname : isFileName table = true)
    (hfile : e.config.CanName (tableFile table)) (rows : List Row) :
    ∃ size stored, e.host.disk.storeRows (e.config.tablePath table) rows = (.ok size, stored) :=
  h.leadsTo.exists_storeRows (isName_tableFile hname) (getLast?_tableFile table) hfile.small
    hfile.check (h.flat _) rows

theorem Keeps.exists_createTable (h : e.Keeps place) (hname : isFileName table = true)
    (hblank : Text.isAllBlank table = false) (hnew : e.catalog.table? table = none)
    (hfile : e.config.CanName (tableFile table)) (schema : Schema) :
    ∃ after, e.createTable (.creating table schema) =
        (.ok (TableEntry.new table schema (e.config.tablePath table)), after) ∧
      after.config = e.config ∧ after.catalog.indexes = e.catalog.indexes ∧
      after.catalog.table? table = some (TableEntry.new table schema (e.config.tablePath table)) := by
  obtain ⟨t, ht⟩ : ∃ t, t = TableEntry.new table schema (e.config.tablePath table) := ⟨_, rfl⟩
  have hentry : e.tableEntry table schema .rowFile none = .ok t := by
    rw [tableEntry, checkName, if_pos hname, ht]
    rfl
  have htName : t.name = table := by
    rw [ht]
    rfl
  obtain ⟨catalog, hadd⟩ : ∃ catalog, e.catalog.addTable t = .ok catalog := by
    rw [Catalog.addTable, htName, hblank, Catalog.hasTable, hnew]
    exact ⟨_, rfl⟩
  obtain ⟨-, hindexes, htables⟩ := Catalog.table?_of_addTable hadd
  have hmissing : e.host.disk.pathExists t.path = false := by
    rw [Disk.pathExists, ht]
    cases hopen : e.host.disk.openEntry (TableEntry.new table schema (e.config.tablePath table)).path with
    | error fault => rfl
    | ok entry =>
      have hget := h.leadsTo.openEntry_eq_ok (isName_tableFile hname) hopen
      rw [h.free table hnew] at hget
      cases hget
  obtain ⟨size, stored, hstore⟩ := h.exists_storeRows hname hfile []
  have hensure : ensureFile e.host.disk t.path = (.ok (), stored) := by
    have hpath : t.path = e.config.tablePath table := by
      rw [ht]
      rfl
    rw [ensureFile, hmissing, if_neg Bool.false_ne_true, hpath, hstore]
    rfl
  rw [Plan.creating, Engine.createTable, hentry]
  dsimp only
  rw [Engine.enterTable, hadd]
  dsimp only
  rw [hensure, ← ht]
  refine ⟨_, rfl, rfl, hindexes, ?_⟩
  have hfound := htables table
  rwa [htName, if_pos rfl] at hfound

theorem loadable_of_wide (ht : e.catalog.table? table = some t)
    (hindexes : e.catalog.indexesOf table = []) (hwide : ∀ row ∈ rows, row.length = t.schema.length) :
    e.loadable table rows = .ok t := by
  have hfind : rows.find? (·.length != t.schema.length) = none := by
    rw [List.find?_eq_none]
    intro row hrow
    rw [hwide row hrow, bne_self_eq_false]
    exact Bool.false_ne_true
  have htable : (e.catalog.getTable table).mapError EngineError.catalog = .ok t :=
    Except.mapError_eq_ok.mpr (Catalog.getTable_eq_ok.mpr ht)
  rw [loadable]
  refine Except.bind_eq_ok.mpr ⟨t, htable, Except.guard_eq_ok.mpr ⟨?_, ?_⟩⟩
  · rw [hindexes]
    exact Bool.false_ne_true
  · rw [hfind]
    rfl

/-- Rows of its schema can be loaded into a table that has no indexes. -/
theorem Keeps.exists_fillTable (h : e.Keeps place) (ht : e.catalog.table? table = some t)
    (hindexes : e.catalog.indexesOf table = []) (hwide : ∀ row ∈ rows, row.length = t.schema.length)
    (hadmits : t.schema.Admits rows) (hfile : e.config.CanName (tableFile table)) :
    ∃ after filled, e.fillTable table rows = (.ok rows.length, after) ∧
      after.config = e.config ∧ after.catalog.indexes = e.catalog.indexes ∧
      after.catalog.table? table = some filled ∧ filled.name = t.name ∧
      filled.schema = t.schema ∧ filled.Holds after.host.disk rows := by
  have hhas := h.tables table t ht
  have hname : t.name = table := Catalog.name_of_table? ht
  have hpath := hhas.path
  rw [hname] at hpath
  obtain ⟨size, stored, hstore⟩ := h.exists_storeRows (hname ▸ hhas.isFileName) hfile rows
  rw [← hpath] at hstore
  obtain ⟨catalog, hstats⟩ : ∃ catalog, e.catalog.updateStats table
      ⟨UInt64.ofNat rows.length, UInt64.ofNat size⟩ = .ok catalog := by
    rw [Catalog.updateStats, Catalog.hasTable, ht]
    exact ⟨_, rfl⟩
  obtain ⟨hindexesEq, htables⟩ := Catalog.table?_of_updateStats hstats
  have hfound := htables table
  rw [ht, Option.map_some, if_pos (by rw [hname, beq_self_eq_true])] at hfound
  obtain ⟨number, hentry⟩ := Disk.openEntry_storeRows hstore
  rw [Engine.fillTable, loadable_of_wide ht hindexes hwide]
  dsimp only
  rw [hstore]
  dsimp only
  rw [hstats]
  exact ⟨_, _, rfl, rfl, hindexesEq, hfound, rfl, rfl, RowReader.open?_of_openEntry hentry, hwide,
    hadmits⟩

theorem indexTask_of_find {c : Column} (hname : isFileName name = true)
    (ht : e.catalog.table? table = some t) (hnew : e.catalog.hasIndex name = false)
    (hfind : t.schema.find column = .ok position) (hget : t.schema[position]? = some c)
    (ascending : Bool) :
    e.indexTask name table column ascending = .ok ⟨IndexEntry.new name table column
      (e.config.indexPath name) ascending, t, position, c.type⟩ := by
  have hcheck : checkName .index name = .ok () := if_pos hname
  have htable : (e.catalog.getTable table).mapError EngineError.catalog = .ok t :=
    Except.mapError_eq_ok.mpr (Catalog.getTable_eq_ok.mpr ht)
  rw [indexTask]
  refine Except.bind_eq_ok.mpr ⟨(), hcheck, Except.bind_eq_ok.mpr ⟨t, htable,
    Except.guard_eq_ok.mpr ⟨Bool.eq_false_iff.mp hnew, ?_⟩⟩⟩
  rw [hfind]
  dsimp only
  rw [hget]
  dsimp only
  rw [IndexEntry.sortSpec, IndexEntry.new, ofSpecs_singleton column c.type ascending]
  rfl

/-- A column of a table with rows can be indexed under a new name. -/
theorem Keeps.exists_createIndex (h : e.Keeps place) (ht : e.catalog.table? table = some t)
    (hrows : t.Holds e.host.disk rows) (hname : isFileName name = true)
    (hblank : Text.isAllBlank name = false) (hnew : e.catalog.hasIndex name = false)
    (hfind : t.schema.find column = .ok position) (hlong : (Bytes.ofText column).length < 2 ^ 32)
    (hfactor : 1 ≤ e.config.loadFactor.toNat) (hverify : e.config.verifyOrder = false)
    (hfile : e.config.CanName (indexFile name)) (ascending : Bool) :
    ∃ summary after, e.createIndex name table column ascending = (.ok summary, after) ∧
      after.catalog = { e.catalog with indexes := e.catalog.indexes ++
        [IndexEntry.new name table column (e.config.indexPath name) ascending] } ∧
      t.Holds after.host.disk rows := by
  have hhas := h.tables table t ht
  obtain ⟨c, hget, -⟩ := Schema.exists_column_of_find hfind
  have hcolumn := hrows.haveColumn hget
  obtain ⟨task, htask⟩ : ∃ task : IndexTask,
      task = ⟨IndexEntry.new name table column (e.config.indexPath name) ascending, t, position,
        c.type⟩ := ⟨_, rfl⟩
  have hindexTask : e.indexTask name table column ascending = .ok task :=
    htask ▸ indexTask_of_find hname ht hnew hfind hget ascending
  have hread : e.host.disk.readColumn t.path position =
      .ok ((Record.located rows).map (Record.keyAt position)) :=
    Disk.readColumn_of_open (hrows.fits hhas.columns) hrows.opens position
  obtain ⟨file, made, hcreate, -⟩ := h.leadsTo.exists_create (isName_indexFile hname) hfile.small
    hfile.check (h.flat _)
  obtain ⟨summary, sealed, hbuild⟩ := Index.exists_build_of_column hcolumn hrows.admits.file hlong
    hfactor hcreate ascending
  have hadd : e.catalog.addIndex task.entry =
      .ok { e.catalog with indexes := e.catalog.indexes ++ [task.entry] } := by
    have hhasColumn : t.schema.has column = true := by
      rw [Schema.has, hfind]
      rfl
    rw [htask]
    exact Catalog.addIndex_of_has hblank ht hhasColumn hnew
  have hwrote : Disk.Wrote e.host.disk (e.config.indexPath name) sealed := by
    rcases Index.build_spec (Disk.length_of_readColumn hread) hbuild with
      ⟨⟨_, heq, -⟩, -⟩ | ⟨-, hwrote⟩
    · cases heq
    · exact hwrote
  have hdiffer := hwrote.differAt h.leadsTo (isName_indexFile hname)
  have hafter : ∀ after : Engine, after.host.disk = sealed → t.Holds after.host.disk rows := by
    rintro after rfl
    exact hhas.holds h.leadsTo hdiffer (tableFile_ne_indexFile _ _) hrows
  have hreadTask : e.host.disk.readColumn task.table.path task.position =
      .ok ((Record.located rows).map (Record.keyAt position)) := by
    rw [htask]
    exact hread
  have hbuildTask : Index.build e.host.disk task.entry.path task.schema [task.entry.sortSpec]
      e.config.loadFactor.toNat false ((Record.located rows).map (Record.keyAt position)) =
        (.ok summary, sealed) := by
    rw [htask]
    exact hbuild
  rw [Engine.createIndex, hindexTask]
  dsimp only
  rw [hreadTask]
  dsimp only
  rw [hverify, hbuildTask]
  dsimp only
  rw [registerIndex]
  dsimp only
  rw [hadd, htask]
  exact ⟨summary, _, rfl, rfl, hafter _ rfl⟩

end Engine

end BlockQuery
