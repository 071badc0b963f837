import BlockQuery.Plan.Display
import BlockQuery.Text

/-!
# The catalog

The catalog knows the tables, indexes and functions of a database.  Names of
tables and indexes are unique; a function is known by its name, read without
surrounding blanks and in upper case, together with the types of its arguments.
Every index is on a column of a known table: it is refused otherwise, and it
goes with its table.
-/

namespace BlockQuery

structure TableStats where
  rows : UInt64
  bytes : UInt64
deriving DecidableEq, Repr

structure TableEntry where
  name : String
  schema : Schema
  store : StoreType
  /-- Options by name, in the order of their names. -/
  options : List (String × String)
  stats : Option TableStats
  path : String
deriving DecidableEq, Repr

inductive IndexMethod where
  | twoLevel
deriving DecidableEq, Repr

def IndexMethod.name : IndexMethod → String
  | twoLevel => "TWO_LEVEL_BST"

structure IndexEntry where
  name : String
  table : String
  column : String
  method : IndexMethod
  path : String
  unique : Bool
  clustered : Bool
  ascending : Bool
deriving DecidableEq, Repr

inductive FunctionKind where
  | general
  | aggregate
deriving DecidableEq, Repr

def FunctionKind.name : FunctionKind → String
  | general => "GENERAL"
  | aggregate => "AGGREGATE"

structure FunctionEntry where
  name : String
  kind : FunctionKind
  returns : DataType
  arguments : List DataType
deriving DecidableEq, Repr

inductive CatalogError where
  | emptyTableName
  | tableExists (name : String)
  | noSuchTable (name : String)
  | emptyIndexName
  | indexExists (name : String)
  | noSuchIndex (name : String)
  | noSuchColumn (table column : String)
  | emptyFunctionName
  | functionExists (signature : String)
  | noSuchFunction (signature : String)
deriving DecidableEq, Repr

def CatalogError.message : CatalogError → String
  | emptyTableName => "Table name must not be empty"
  | tableExists name => "Table already exists: " ++ name
  | noSuchTable name => "No such table: " ++ name
  | emptyIndexName => "Index name must not be empty"
  | indexExists name => "Index already exists: " ++ name
  | noSuchIndex name => "No such index: " ++ name
  | noSuchColumn table column => "Table " ++ table ++ " has no column " ++ column
  | emptyFunctionName => "Function name must not be empty"
  | functionExists signature => "Function already exists: " ++ signature
  | noSuchFunction signature => "No such function: " ++ signature

namespace TableEntry

def new (name : String) (schema : Schema) (path : String) : TableEntry :=
  ⟨name, schema, .rowFile, [], none, path⟩

/-- Sets an option among options in the order of their names. -/
def setOption (name value : String) : List (String × String) → List (String × String)
  | [] => [(name, value)]
  | (other, v) :: rest =>
    match compareText name other with
    | .lt => (name, value) :: (other, v) :: rest
    | .eq => (name, value) :: rest
    | .gt => (other, v) :: setOption name value rest

def withOption (t : TableEntry) (name value : String) : TableEntry :=
  { t with options := setOption name value t.options }

/-- The schema of a table with its name before every column. -/
def qualifiedSchema (t : TableEntry) : Schema := t.schema.qualified t.name

def rowCount (t : TableEntry) : Option UInt64 := t.stats.map (·.rows)

end TableEntry

namespace IndexEntry

def new (name table column path : String) (ascending : Bool) : IndexEntry :=
  ⟨name, table, column, .twoLevel, path, false, false, ascending⟩

/-- The order of the entries of an index; nulls come last. -/
def sortSpec (e : IndexEntry) : SortSpec := ⟨e.column, e.ascending, false⟩

end IndexEntry

/-- A function name with the types of arguments. -/
def signature (name : String) (arguments : List DataType) : String :=
  name ++ "(" ++ ", ".intercalate (arguments.map DataType.name) ++ ")"

/-- The name under which a function is known. -/
def functionKey (name : String) : String := (Text.trimmed name).map Char.toUpper

namespace FunctionEntry

def signature (f : FunctionEntry) : String := BlockQuery.signature f.name f.arguments

def key (f : FunctionEntry) : String := functionKey f.name

end FunctionEntry

/-- The functions by the names under which they are known, with their overloads. -/
abbrev Overloads := List (String × List FunctionEntry)

namespace Overloads

def find? (o : Overloads) (name : String) (arguments : List DataType) : Option FunctionEntry :=
  (o.lookup (functionKey name)).bind (·.find? (·.arguments == arguments))

/-- Makes sure that there is a list of overloads under a name. -/
def enter (o : Overloads) (key : String) : Overloads :=
  if (o.lookup key).isSome then o else o ++ [(key, [])]

/-- Changes the overloads under a name. -/
def modify (o : Overloads) (key : String) (f : List FunctionEntry → List FunctionEntry) :
    Overloads :=
  o.map fun p => if p.1 == key then (p.1, f p.2) else p

def push (o : Overloads) (f : FunctionEntry) : Overloads :=
  (o.enter f.key).modify f.key (· ++ [f])

/-- Adds an overload, and what is left where it is refused.  The list of overloads is
entered before it is searched. -/
def register (o : Overloads) (f : FunctionEntry) : Except CatalogError Unit × Overloads :=
  let entered := o.enter f.key
  if (entered.find? f.name f.arguments).isSome then (.error (.functionExists f.signature), entered)
  else (.ok (), entered.modify f.key (· ++ [f]))

/-- Removes an overload, and what is left where there is none.  No list is left empty. -/
def unregister (o : Overloads) (name : String) (arguments : List DataType) :
    Except CatalogError Unit × Overloads :=
  let key := functionKey name
  match o.lookup key with
  | none => (.error (.noSuchFunction (signature name arguments)), o)
  | some overloads =>
    let kept := overloads.filter (·.arguments != arguments)
    let changed := o.modify key fun _ => kept
    if kept.length = overloads.length then
      (.error (.noSuchFunction (signature name arguments)), changed)
    else if kept.isEmpty then (.ok (), changed.filter (·.1 != key))
    else (.ok (), changed)

end Overloads

structure Catalog where
  tables : List TableEntry
  indexes : List IndexEntry
  functions : Overloads
deriving DecidableEq, Repr

namespace Catalog

def empty : Catalog := ⟨[], [], []⟩

def allTypes : List DataType := [.bool, .int4, .int8, .float8, .text]

def numericTypes : List DataType := [.int4, .int8, .float8]

/-- The aggregates of every database. -/
def builtinAggregates : List FunctionEntry :=
  ⟨"count", .aggregate, .int8, []⟩ ::
    (allTypes.flatMap fun t =>
      [⟨"count", .aggregate, .int8, [t]⟩, ⟨"min", .aggregate, t, [t]⟩,
        ⟨"max", .aggregate, t, [t]⟩]) ++
    numericTypes.flatMap fun t =>
      [⟨"sum", .aggregate, if t = .float8 then .float8 else .int8, [t]⟩,
        ⟨"avg", .aggregate, .float8, [t]⟩]

def builtin : Catalog := ⟨[], [], builtinAggregates.foldl Overloads.push []⟩

/-! ## Tables -/

def table? (c : Catalog) (name : String) : Option TableEntry :=
  c.tables.find? (·.name == name)

def getTable (c : Catalog) (name : String) : Except CatalogError TableEntry :=
  match c.table? name with
  | some t => .ok t
  | none => .error (.noSuchTable name)

def hasTable (c : Catalog) (name : String) : Bool := (c.table? name).isSome

def addTable (c : Catalog) (t : TableEntry) : Except CatalogError Catalog :=
  if Text.isAllBlank t.name then .error .emptyTableName
  else if c.hasTable t.name then .error (.tableExists t.name)
  else .ok { c with tables := c.tables ++ [t] }

/-- Removes a table and its indexes. -/
def dropTable (c : Catalog) (name : String) : Except CatalogError Catalog :=
  if c.hasTable name then
    .ok { c with
      tables := c.tables.filter (·.name != name)
      indexes := c.indexes.filter (·.table != name) }
  else .error (.noSuchTable name)

def tableNames (c : Catalog) : List String :=
  (c.tables.map (·.name)).mergeSort fun a b => (compareText a b).isLE

def updateStats (c : Catalog) (name : String) (stats : TableStats) : Except CatalogError Catalog :=
  if c.hasTable name then
    .ok { c with tables := c.tables.map fun t =>
      if t.name == name then { t with stats := some stats } else t }
  else .error (.noSuchTable name)

/-! ## Indexes -/

def index? (c : Catalog) (name : String) : Option IndexEntry :=
  c.indexes.find? (·.name == name)

def getIndex (c : Catalog) (name : String) : Except CatalogError IndexEntry :=
  match c.index? name with
  | some e => .ok e
  | none => .error (.noSuchIndex name)

def hasIndex (c : Catalog) (name : String) : Bool := (c.index? name).isSome

def hasIndexOn (c : Catalog) (table column : String) : Bool :=
  c.indexes.any fun e => e.table == table && e.column == column

def addIndex (c : Catalog) (e : IndexEntry) : Except CatalogError Catalog := do
  if Text.isAllBlank e.name then throw .emptyIndexName
  let t ← c.getTable e.table
  if !t.schema.has e.column then throw (.noSuchColumn e.table e.column)
  if c.hasIndex e.name then throw (.indexExists e.name)
  return { c with indexes := c.indexes ++ [e] }

def dropIndex (c : Catalog) (name : String) : Except CatalogError Catalog :=
  if c.hasIndex name then .ok { c with indexes := c.indexes.filter (·.name != name) }
  else .error (.noSuchIndex name)

/-- The indexes of a table by column, and by name within a column. -/
def indexesOf (c : Catalog) (table : String) : List IndexEntry :=
  (c.indexes.filter (·.table == table)).mergeSort fun a b =>
    ((compareText a.column b.column).then (compareText a.name b.name)).isLE

/-! ## Functions -/

def function? (c : Catalog) (name : String) (arguments : List DataType) : Option FunctionEntry :=
  c.functions.find? name arguments

def getFunction (c : Catalog) (name : String) (arguments : List DataType) :
    Except CatalogError FunctionEntry :=
  match c.function? name arguments with
  | some f => .ok f
  | none => .error (.noSuchFunction (signature name arguments))

def hasFunction (c : Catalog) (name : String) (arguments : List DataType) : Bool :=
  (c.getFunction name arguments).isOk

/-- The catalog after a change of its functions, unless that failed. -/
def withFunctions (c : Catalog) : Except CatalogError Unit × Overloads → Except CatalogError Catalog
  | (.ok (), functions) => .ok { c with functions }
  | (.error e, _) => .error e

def register (c : Catalog) (f : FunctionEntry) : Except CatalogError Catalog :=
  if Text.isAllBlank f.name then .error .emptyFunctionName
  else c.withFunctions (c.functions.register f)

def unregister (c : Catalog) (name : String) (arguments : List DataType) :
    Except CatalogError Catalog :=
  c.withFunctions (c.functions.unregister name arguments)

end Catalog
end BlockQuery
