import BlockQuery.Engine
import BlockQuery.Index.Writer
import BlockQuery.Plan.Display
import BlockQuery.RowFile.Appender
import BlockQuery.RowFile.Reader

/-!
# Tables and indexes

The statements that change what an engine keeps: creating a table, loading its
rows, and creating an index on a column of it.  Rows are loaded before the
first index is created, so that indexes never miss a row.
-/

namespace BlockQuery

/-- Whether a name can be part of a file name. -/
def isFileName (name : String) : Bool :=
  !name.isEmpty && name != "." && name != ".." &&
    !name.toList.any fun c => c == '/' || c == '\\' || c == '\x00'

namespace Engine

def checkName (kind : ObjectKind) (name : String) : Except EngineError Unit :=
  if isFileName name then .ok () else .error (.invalidRequest (.badName kind name))

/-! ## Tables -/

/-- The catalog entry of a table that is to be created. -/
def tableEntry (e : Engine) (table : String) (schema : Schema) (store : StoreType)
    (path : Option String) : Except EngineError TableEntry := do
  checkName .table table
  let path := path.getD (e.config.tablePath table)
  return { TableEntry.new table schema path with store := store }

/-- The disk with a file at a path; one that is there stays as it is. -/
def ensureFile (disk : Disk) (path : String) : Except StorageError Unit × Disk :=
  if disk.pathExists path then (.ok (), disk)
  else
    let (size, disk) := disk.storeRows path []
    (size.map fun _ => (), disk)

def tableFields (t : TableEntry) : LogFields :=
  [("table", t.name), ("columns", toString t.schema.length), ("path", t.path)]

/-- Enters a table into the catalog and makes its file. -/
def enterTable (e : Engine) (t : TableEntry) : Except EngineError TableEntry × Engine :=
  match e.catalog.addTable t with
  | .error fault => (.error (.catalog fault), e)
  | .ok catalog =>
    let e := { e with catalog := catalog }
    let (made, disk) := ensureFile e.host.disk t.path
    let host := { e.host with disk := disk }
    match made with
    | .error fault => (.error (.storage fault), { e with host := host })
    | .ok _ => (.ok t, { e with host := host.report .tableCreated (tableFields t) })

/-- Runs a statement that creates a table. -/
def createTable (e : Engine) : Plan → Except EngineError TableEntry × Engine
  | .root child => e.createTable child
  | .createTable table schema store path =>
    match e.tableEntry table schema store path with
    | .error fault => (.error fault, e)
    | .ok t => e.enterTable t
  | other => (.error (.invalidRequest (.notCreateTable other.kind)), e)

/-- The entry of a table that may be given some rows. -/
def loadable (e : Engine) (table : String) (rows : List Row) : Except EngineError TableEntry := do
  let t ← (e.catalog.getTable table).mapError .catalog
  if !(e.catalog.indexesOf table).isEmpty then throw (.invalidRequest (.hasIndexes table))
  match rows.find? (·.length != t.schema.length) with
  | some row => throw (.invalidRequest (.rowWidth row table t.schema.length))
  | none => return t

/-- Gives a table its rows, in place of those it had, and tells their number. -/
def fillTable (e : Engine) (table : String) (rows : List Row) : Except EngineError Nat × Engine :=
  match e.loadable table rows with
  | .error fault => (.error fault, e)
  | .ok t =>
    let (stored, disk) := e.host.disk.storeRows t.path rows
    let e := { e with host := { e.host with disk := disk } }
    match stored with
    | .error fault => (.error (.storage fault), e)
    | .ok size =>
      match e.catalog.updateStats table ⟨UInt64.ofNat rows.length, UInt64.ofNat size⟩ with
      | .error fault => (.error (.catalog fault), e)
      | .ok catalog => (.ok rows.length, { e with catalog := catalog })

/-! ## Indexes -/

/-- An index that is to be built: its entry, the table and the column. -/
structure IndexTask where
  entry : IndexEntry
  table : TableEntry
  position : Nat
  type : DataType
deriving Repr

/-- The schema of the keys; the column keeps the name by which it was asked for. -/
def IndexTask.schema (task : IndexTask) : Schema := [⟨task.entry.column, task.type⟩]

/-- Checks that an index can be built. -/
def indexTask (e : Engine) (name table column : String) (ascending : Bool) :
    Except EngineError IndexTask := do
  checkName .index name
  let t ← (e.catalog.getTable table).mapError .catalog
  if e.catalog.hasIndex name then throw (.catalog (.indexExists name))
  match t.schema.find column with
  | .error _ => throw (.catalog (.noSuchColumn table column))
  | .ok position =>
    match t.schema[position]? with
    | none => throw (.invalidRequest (.noColumn column))
    | some c =>
      let entry := IndexEntry.new name table column (e.config.indexPath name) ascending
      match RowOrder.ofSpecs [⟨column, c.type⟩] [entry.sortSpec] with
      | .error fault => throw (.invalidRequest (.keyColumn fault))
      | .ok _ => return ⟨entry, t, position, c.type⟩

def builtFields (s : Index.Summary) : LogFields :=
  [("path", s.path), ("entries", toString s.entryCount), ("top_entries", toString s.topCount),
    ("load_factor", toString s.loadFactor), ("bytes", toString s.fileSize)]

/-- Enters an index that was built into the catalog. -/
def registerIndex (e : Engine) (task : IndexTask) (s : Index.Summary) :
    Except EngineError Index.Summary × Engine :=
  let e := { e with host := e.host.report .indexBuilt (builtFields s) }
  match e.catalog.addIndex task.entry with
  | .error fault => (.error (.catalog fault), e)
  | .ok catalog =>
    (.ok s, { e with
      catalog := catalog
      host := (e.host.count .indexEntriesWritten s.entryCount).report .indexRegistered
        [("index", task.entry.name), ("table", task.entry.table), ("column", task.entry.column)] })

/-- Creates an index on a column of a table. -/
def createIndex (e : Engine) (name table column : String) (ascending : Bool) :
    Except EngineError Index.Summary × Engine :=
  match e.indexTask name table column ascending with
  | .error fault => (.error fault, e)
  | .ok task =>
    match e.host.disk.readColumn task.table.path task.position with
    | .error fault => (.error (.storage fault), e)
    | .ok entries =>
      match Index.build e.host.disk task.entry.path task.schema [task.entry.sortSpec]
          e.config.loadFactor.toNat e.config.verifyOrder entries with
      | (.error fault, disk) =>
        (.error (.index fault), { e with host := { e.host with disk := disk } })
      | (.ok s, disk) => { e with host := { e.host with disk := disk } }.registerIndex task s

end Engine
end BlockQuery
