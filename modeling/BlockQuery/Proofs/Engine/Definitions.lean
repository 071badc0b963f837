import BlockQuery.Proofs.Engine.Effects

/-!
# What a failed definition leaves behind

A table whose file cannot be made stays in the catalog, and an index that is refused when its
entries are written leaves its file.  Every other failure leaves the catalog and all files as
they were.
-/

namespace BlockQuery

/-- A statement that defines a table or an index. -/
inductive Definition where
  | table (plan : Plan)
  | index (name table column : String) (ascending : Bool)

namespace Engine

/-- Runs a definition. -/
def define (e : Engine) : Definition → Except EngineError Unit × Engine
  | .table plan => ((e.createTable plan).1.map fun _ => (), (e.createTable plan).2)
  | .index name table column ascending =>
    ((e.createIndex name table column ascending).1.map fun _ => (),
      (e.createIndex name table column ascending).2)

variable {e after : Engine} {fault : EngineError}

section CreateTable

variable {plan : Plan} {t : TableEntry}

/-- Another engine takes the same plan for the same name. -/
theorem exists_entryOf (h : e.entryOf plan = .ok t) (again : Engine) :
    ∃ t', again.entryOf plan = .ok t' ∧ t'.name = t.name := by
  fun_induction entryOf e plan with
  | case1 child ih => exact ih h
  | case2 table schema store path =>
    rw [tableEntry, checkName] at h
    rw [entryOf, tableEntry, checkName]
    split at h
    next hname =>
      cases h
      rw [if_pos hname]
      exact ⟨_, rfl, rfl⟩
    next => cases h
  | case3 other => cases h

/-- A table that was entered is not created again, whatever became of its file. -/
theorem Entered.createTable_again {made : Except StorageError Unit} (hentered : Entered e t made after)
    (hentry : e.entryOf plan = .ok t) {again : Engine} (hagain : again.catalog = after.catalog) :
    (again.createTable plan).1 = .error (.catalog (.tableExists t.name)) := by
  obtain ⟨t', hentry', hname⟩ := exists_entryOf hentry again
  have hthere : again.catalog.addTable t' = .error (.tableExists t.name) := by
    rw [hagain]
    exact Catalog.addTable_again hentered.catalog hname
  rw [createTable_eq, hentry']
  dsimp only
  rw [enterTable, hthere]

theorem changesWithin_of_ensureFile_error {disk made : Disk} {path : String} {reason : StorageError}
    (h : ensureFile disk path = (.error reason, made)) : Disk.ChangesWithin ∅ disk made := by
  rw [ensureFile] at h
  split at h
  · cases h
  · rcases hstore : disk.storeRows path [] with ⟨_ | size, stored⟩
    · rw [hstore] at h
      cases h
      exact Disk.changesWithin_of_storeRows_error hstore
    · rw [hstore] at h
      cases h

end CreateTable

end Engine

namespace Definition

/-- Whether a definition that failed has an entry in the catalog: it is of a table, and its file
could not be made. -/
def LeavesEntry : Definition → EngineError → Prop
  | .table _, .storage _ => True
  | _, _ => False

/-- Whether a definition that failed has a new file: it is of an index, and was refused late. -/
def LeavesFile (e : Engine) : Definition → EngineError → Prop
  | .table _, _ => False
  | .index name .., fault =>
    fault.IsLate ∧ ¬e.host.disk.IsFile (Path.place (e.config.indexPath name))

end Definition

namespace Engine

variable {e after : Engine} {fault : EngineError} {d : Definition}

/-- What is left of a definition that failed.  The catalog is as before unless it was a table whose
file could not be made, and then the definition is refused ever after.  No file is new unless it is
that of an index that was refused late. -/
theorem define_error_iff (h : e.define d = (.error fault, after)) :
    after.config = e.config ∧ (after.catalog = e.catalog ↔ ¬d.LeavesEntry fault) ∧
      ((∀ q, after.host.disk.IsFile q → e.host.disk.IsFile q) ↔ ¬d.LeavesFile e fault) ∧
      (d.LeavesEntry fault → ∀ again : Engine, again.catalog = after.catalog →
        ∃ name, (again.define d).1 = .error (.catalog (.tableExists name))) := by
  cases d with
  | table plan =>
    obtain ⟨hresult, hafter⟩ := Prod.mk.inj h
    have hcreates := e.createsTable plan
    rw [Except.map_eq_error.mp hresult, hafter] at hcreates
    cases hcreates with
    | refused hearly =>
      have hno : ¬(Definition.table plan).LeavesEntry fault := by
        cases fault with
        | storage reason => exact absurd rfl (hearly reason)
        | _ => exact id
      exact ⟨rfl, iff_of_true rfl hno, iff_of_true (fun _ hq => hq) id, fun hyes => absurd hyes hno⟩
    | failed hentry hentered =>
      have hchanges := changesWithin_of_ensureFile_error hentered.file
      refine ⟨hentered.config,
        iff_of_false (Catalog.ne_of_addTable hentered.catalog) (not_not_intro trivial),
        iff_of_true (fun q hq => (hchanges.isFile_iff (Set.notMem_empty q)).mp hq) id, ?_⟩
      intro _ again hcatalog
      exact ⟨_, Except.map_eq_error.mpr (hentered.createTable_again hentry hcatalog)⟩
  | index name table column ascending =>
    obtain ⟨hresult, hafter⟩ := Prod.mk.inj h
    have hcreates := e.createsIndex name table column ascending
    rw [Except.map_eq_error.mp hresult, hafter] at hcreates
    cases hcreates with
    | refused hearly =>
      exact ⟨rfl, iff_of_true rfl id, iff_of_true (fun _ hq => hq) fun hleaves => hearly hleaves.1,
        False.elim⟩
    | failed hlate _ hconfig hcatalog hwrote =>
      refine ⟨hconfig, iff_of_true hcatalog id, ?_, False.elim⟩
      constructor
      · exact fun hold hleaves => hleaves.2 (hold _ hwrote.isFile)
      · intro hleaves q hq
        rcases eq_or_ne q (Path.place (e.config.indexPath name)) with rfl | hne
        · exact not_not.mp fun hnew => hleaves ⟨hlate, hnew⟩
        · exact (hwrote.changesWithin.isFile_iff hne).mp hq

/-- An engine with a file in the working directory. -/
def blocked : Engine where
  config := .ofDataDir "data"
  catalog := .builtin
  host := ⟨⟨[([".", "a"], .file 0 [])], 1⟩, ⟨.fatal, ⟨"", ""⟩, [], []⟩, .zero, 0⟩

/-- A table whose directory is that file. -/
def belowFile : Definition := .table (.createTable "t" [⟨"a", .int4⟩] .rowFile (some "a/t.rows"))

theorem define_belowFile : (blocked.define belowFile).1 = .error
    (.storage (.io "Failed to create data file: a/t.rows" .notDirectory)) := by decide +kernel

theorem define_error_iff_belowFile :
    (blocked.define belowFile).2.catalog ≠ blocked.catalog := by
  obtain ⟨-, hcatalog, -, -⟩ := define_error_iff (Prod.ext define_belowFile rfl)
  exact fun hsame => hcatalog.mp hsame trivial

/-- An engine with an empty table in the working directory. -/
def furnished : Engine where
  config := .ofDataDir "."
  catalog := { Catalog.builtin with tables := [.new "t" [⟨"a", .int4⟩] "./t.rows"] }
  host := ⟨⟨[([".", "t.rows"], .file 0 [])], 1⟩, ⟨.fatal, ⟨"", ""⟩, [], []⟩, .zero, 0⟩

/-- A table that was refused is in the catalog, and an index that was refused has its file. -/
theorem exists_traces :
    (∃ (e : Engine) (d : Definition) (fault : EngineError),
      (e.define d).1 = .error fault ∧ (e.define d).2.catalog ≠ e.catalog) ∧
    ∃ (e : Engine) (d : Definition) (fault : EngineError) (q : Place), (e.define d).1 = .error fault ∧
      e.host.disk.get? q = none ∧ (e.define d).2.host.disk.IsFile q := by
  refine ⟨⟨blocked, belowFile, _, define_belowFile, by decide +kernel⟩, furnished,
    .index " " "t" "a" true, .catalog .emptyIndexName, [".", " .idx"], by decide +kernel,
    by decide +kernel, by decide +kernel⟩

end Engine

end BlockQuery
