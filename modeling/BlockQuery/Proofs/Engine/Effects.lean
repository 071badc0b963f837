import BlockQuery.Engine.Definition
import BlockQuery.Proofs.Catalog.Entries
import BlockQuery.Proofs.Disk.Changes
import BlockQuery.Proofs.RowFile.Located

/-!
# What statements can do

A table is entered into the catalog before its file is made, and an index after its file was
written.  Rows are stored before their number is.  Each statement has one constructor for every way
in which it can end.
-/

namespace BlockQuery

/-- Whether an engine has done the work of a definition when it refuses it: then the entries were
out of order or too many, or the catalog takes the name for blank. -/
def EngineError.IsLate : EngineError → Prop
  | .index fault => fault.IsLate
  | .catalog .emptyIndexName => True
  | _ => False

namespace Engine

variable {e after : Engine} {fault : EngineError}

/-! ## Tables -/

section CreateTable

variable {plan : Plan} {t : TableEntry}

/-- The entry of the table that a plan creates. -/
def entryOf (e : Engine) : Plan → Except EngineError TableEntry
  | .root child => e.entryOf child
  | .createTable table schema store path => e.tableEntry table schema store path
  | other => .error (.invalidRequest (.notCreateTable other.kind))

theorem createTable_eq (e : Engine) (plan : Plan) :
    e.createTable plan = match e.entryOf plan with
      | .error fault => (.error fault, e)
      | .ok t => e.enterTable t := by
  fun_induction entryOf e plan with
  | case1 child ih => exact ih
  | case2 table schema store path => rfl
  | case3 other hroot hcreate =>
    rw [createTable]
    · exact hroot
    · exact hcreate

theorem ne_storage_of_entryOf (h : e.entryOf plan = .error fault) (reason : StorageError) :
    fault ≠ .storage reason := by
  fun_induction entryOf e plan with
  | case1 child ih => exact ih h
  | case2 table schema store path =>
    rw [tableEntry, checkName] at h
    split at h
    · cases h
    · cases h
      intro heq
      cases heq
  | case3 other =>
    cases h
    intro heq
    cases heq

/-- What becomes of an engine that enters a table, whose file may not be made. -/
structure Entered (e : Engine) (t : TableEntry) (made : Except StorageError Unit)
    (after : Engine) : Prop where
  config : after.config = e.config
  catalog : e.catalog.addTable t = .ok after.catalog
  file : ensureFile e.host.disk t.path = (made, after.host.disk)

/-- What creating a table can do. -/
inductive CreatesTable (e : Engine) (plan : Plan) : Except EngineError TableEntry → Engine → Prop
  | refused {fault : EngineError} (early : ∀ reason, fault ≠ .storage reason) :
    CreatesTable e plan (.error fault) e
  | failed {t : TableEntry} {reason : StorageError} {after : Engine} (entry : e.entryOf plan = .ok t)
    (entered : Entered e t (.error reason) after) :
    CreatesTable e plan (.error (.storage reason)) after
  | created {t : TableEntry} {after : Engine} (entry : e.entryOf plan = .ok t)
    (entered : Entered e t (.ok ()) after) : CreatesTable e plan (.ok t) after

theorem createsTable (e : Engine) (plan : Plan) :
    CreatesTable e plan (e.createTable plan).1 (e.createTable plan).2 := by
  rw [createTable_eq]
  cases hentry : e.entryOf plan with
  | error fault => exact .refused (ne_storage_of_entryOf hentry)
  | ok t =>
    dsimp only
    rw [enterTable]
    cases hadd : e.catalog.addTable t with
    | error reason => exact .refused fun _ heq => by cases heq
    | ok catalog =>
      dsimp only
      rcases hensure : ensureFile e.host.disk t.path with ⟨reason | _, disk⟩
      · exact .failed hentry ⟨rfl, hadd, hensure⟩
      · exact .created hentry ⟨rfl, hadd, hensure⟩

end CreateTable

/-! ## Rows -/

section FillTable

variable {table : String} {rows : List Row} {t : TableEntry}

theorem loadable_eq_ok (h : e.loadable table rows = .ok t) :
    e.catalog.table? table = some t ∧ (∀ x ∈ e.catalog.indexes, x.table ≠ table) ∧
      ∀ row ∈ rows, row.length = t.schema.length := by
  rw [loadable] at h
  obtain ⟨t', htable, h⟩ := Except.bind_eq_ok.mp h
  obtain ⟨hindexes, h⟩ := Except.guard_eq_ok.mp h
  split at h
  next => cases h
  next hwide =>
    cases h
    refine ⟨Catalog.getTable_eq_ok.mp (Except.mapError_eq_ok.mp htable), ?_, ?_⟩
    · intro x hx heq
      have hmem := Catalog.mem_indexesOf.mpr ⟨hx, heq⟩
      rw [Bool.not_eq_true', Bool.not_eq_false, List.isEmpty_iff] at hindexes
      rw [hindexes] at hmem
      cases hmem
    · intro row hrow
      have hrow := List.find?_eq_none.mp hwide row hrow
      rwa [bne_iff_ne, ne_eq, not_not] at hrow

/-- What giving rows to a table can do. -/
inductive FillsTable (e : Engine) (table : String) (rows : List Row) :
    Except EngineError ℕ → Engine → Prop
  | refused {fault : EngineError} : FillsTable e table rows (.error fault) e
  | failed {t : TableEntry} {reason : StorageError} {disk : Disk}
    (loadable : e.loadable table rows = .ok t)
    (store : e.host.disk.storeRows t.path rows = (.error reason, disk)) :
    FillsTable e table rows (.error (.storage reason))
      { e with host := { e.host with disk := disk } }
  | filled {t : TableEntry} {size : ℕ} {after : Engine} (loadable : e.loadable table rows = .ok t)
    (config : after.config = e.config)
    (store : e.host.disk.storeRows t.path rows = (.ok size, after.host.disk))
    (stats : e.catalog.updateStats table ⟨UInt64.ofNat rows.length, UInt64.ofNat size⟩ =
      .ok after.catalog) : FillsTable e table rows (.ok rows.length) after

theorem fillsTable (e : Engine) (table : String) (rows : List Row) :
    FillsTable e table rows (e.fillTable table rows).1 (e.fillTable table rows).2 := by
  rw [fillTable]
  cases hload : e.loadable table rows with
  | error fault => exact .refused
  | ok t =>
    dsimp only
    rcases hstore : e.host.disk.storeRows t.path rows with ⟨reason | size, stored⟩
    · exact .failed hload hstore
    · dsimp only
      cases hstats : e.catalog.updateStats table ⟨UInt64.ofNat rows.length, UInt64.ofNat size⟩ with
      | error fault =>
        rw [Catalog.updateStats, Catalog.hasTable, (loadable_eq_ok hload).1] at hstats
        cases hstats
      | ok catalog => exact .filled hload rfl hstore hstats

end FillTable

/-! ## Indexes -/

section CreateIndex

variable {name table column : String} {ascending : Bool} {task : IndexTask}

/-- What is known of an index that can be built. -/
structure Tasked (e : Engine) (name table column : String) (ascending : Bool) (task : IndexTask) :
    Prop where
  isFileName : isFileName name = true
  fresh : ∀ x ∈ e.catalog.indexes, x.name ≠ name
  registered : e.catalog.table? table = some task.table
  find : task.table.schema.find column = .ok task.position
  typed : ∃ c, task.table.schema[task.position]? = some c ∧ c.type = task.type
  entry : task.entry = IndexEntry.new name table column (e.config.indexPath name) ascending

theorem indexTask_eq_ok (h : e.indexTask name table column ascending = .ok task) :
    Tasked e name table column ascending task := by
  rw [indexTask] at h
  obtain ⟨_, hname, h⟩ := Except.bind_eq_ok.mp h
  obtain ⟨t, htable, h⟩ := Except.bind_eq_ok.mp h
  obtain ⟨hfresh, h⟩ := Except.guard_eq_ok.mp h
  have hisFileName : BlockQuery.isFileName name = true := by
    rw [checkName] at hname
    split at hname
    · assumption
    · cases hname
  split at h
  next => cases h
  next position hfind =>
    split at h
    next => cases h
    next c hget =>
      dsimp only at h
      split at h
      next => cases h
      next =>
        cases h
        exact ⟨hisFileName, Catalog.hasIndex_eq_false.mp (Bool.eq_false_iff.mpr hfresh),
          Catalog.getTable_eq_ok.mp (Except.mapError_eq_ok.mp htable), hfind, ⟨c, hget, rfl⟩, rfl⟩

theorem not_isLate_of_indexTask (h : e.indexTask name table column ascending = .error fault) :
    ¬fault.IsLate := by
  rw [indexTask] at h
  rcases Except.bind_eq_error.mp h with hname | ⟨_, -, h⟩
  · rw [checkName] at hname
    split at hname
    · cases hname
    · cases hname
      exact id
  rcases Except.bind_eq_error.mp h with htable | ⟨t, -, h⟩
  · rw [Catalog.getTable] at htable
    split at htable
    · cases htable
    · cases htable
      exact id
  rcases Except.guard_eq_error.mp h with ⟨-, rfl⟩ | ⟨-, h⟩
  · exact id
  split at h
  next =>
    cases h
    exact id
  next =>
    split at h
    next =>
      cases h
      exact id
    next =>
      dsimp only at h
      split at h
      next =>
        cases h
        exact id
      next => cases h

/-- After an index was built, the catalog refuses it only if it takes its name for blank. -/
theorem Tasked.addIndex_error (h : Tasked e name table column ascending task) {reason : CatalogError}
    (hadd : e.catalog.addIndex task.entry = .error reason) : reason = .emptyIndexName := by
  rw [h.entry] at hadd
  cases hblank : Text.isAllBlank name with
  | true =>
    rw [Catalog.addIndex, IndexEntry.new, hblank] at hadd
    cases hadd
    rfl
  | false =>
    have hhas : task.table.schema.has column = true := by
      rw [Schema.has, h.find]
      rfl
    rw [Catalog.addIndex_of_has hblank h.registered hhas (Catalog.hasIndex_eq_false.mpr h.fresh)]
      at hadd
    cases hadd

/-- What creating an index can do. -/
inductive CreatesIndex (e : Engine) (name table column : String) (ascending : Bool) :
    Except EngineError Index.Summary → Engine → Prop
  | refused {fault : EngineError} (early : ¬fault.IsLate) :
    CreatesIndex e name table column ascending (.error fault) e
  | failed {fault : EngineError} {task : IndexTask} {after : Engine} (late : fault.IsLate)
    (checked : e.indexTask name table column ascending = .ok task)
    (config : after.config = e.config) (catalog : after.catalog = e.catalog)
    (wrote : Disk.Wrote e.host.disk (e.config.indexPath name) after.host.disk) :
    CreatesIndex e name table column ascending (.error fault) after
  | created {task : IndexTask} {entries : List (Row × ℕ)} {summary : Index.Summary} {after : Engine}
    (checked : e.indexTask name table column ascending = .ok task)
    (config : after.config = e.config)
    (catalog : after.catalog = { e.catalog with indexes := e.catalog.indexes ++ [task.entry] })
    (read : e.host.disk.readColumn task.table.path task.position = .ok entries)
    (build : Index.build e.host.disk (e.config.indexPath name) [⟨column, task.type⟩]
      [⟨column, ascending, false⟩] e.config.loadFactor.toNat e.config.verifyOrder entries =
        (.ok summary, after.host.disk))
    (wrote : Disk.Wrote e.host.disk (e.config.indexPath name) after.host.disk) :
    CreatesIndex e name table column ascending (.ok summary) after

theorem createsIndex (e : Engine) (name table column : String) (ascending : Bool) :
    CreatesIndex e name table column ascending (e.createIndex name table column ascending).1
      (e.createIndex name table column ascending).2 := by
  rw [createIndex]
  cases hchecked : e.indexTask name table column ascending with
  | error fault => exact .refused (not_isLate_of_indexTask hchecked)
  | ok task =>
    have htask := indexTask_eq_ok hchecked
    dsimp only
    cases hread : e.host.disk.readColumn task.table.path task.position with
    | error fault => exact .refused id
    | ok entries =>
      have hentry := htask.entry
      have hpath : task.entry.path = e.config.indexPath name := by rw [hentry]; rfl
      have hschema : task.schema = [⟨column, task.type⟩] := by rw [IndexTask.schema, hentry]; rfl
      have hspec : task.entry.sortSpec = ⟨column, ascending, false⟩ := by rw [hentry]; rfl
      dsimp only
      rw [hpath, hschema, hspec]
      rcases hbuild : Index.build e.host.disk (e.config.indexPath name) [⟨column, task.type⟩]
        [⟨column, ascending, false⟩] e.config.loadFactor.toNat e.config.verifyOrder entries with
          ⟨fault | summary, disk⟩
      · rcases Index.build_spec (Disk.length_of_readColumn hread) hbuild with
          ⟨⟨_, heq, hearly⟩, rfl⟩ | ⟨hlate, hwrote⟩
        · cases heq
          exact .refused hearly
        · exact .failed (hlate fault rfl) hchecked rfl rfl hwrote
      · rcases Index.build_spec (Disk.length_of_readColumn hread) hbuild with
          ⟨⟨_, heq, -⟩, -⟩ | ⟨-, hwrote⟩
        · cases heq
        dsimp only
        rw [registerIndex]
        dsimp only
        cases hadd : e.catalog.addIndex task.entry with
        | error reason =>
          rw [htask.addIndex_error hadd]
          exact .failed trivial hchecked rfl rfl hwrote
        | ok catalog => exact .created hchecked rfl (Catalog.addIndex_eq_ok hadd) hread hbuild hwrote

end CreateIndex

end Engine

end BlockQuery
