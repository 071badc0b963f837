import BlockQuery.Catalog
import BlockQuery.Engine.Dispatch
import BlockQuery.Execution.Error
import BlockQuery.MasterPlan.Error
import BlockQuery.Text.Quoted

/-!
# Errors of the engine
-/

namespace BlockQuery

/-- The things that a statement gives a name to. -/
inductive ObjectKind where
  | table
  | index
deriving DecidableEq, Repr

def ObjectKind.name : ObjectKind → String
  | table => "table"
  | index => "index"

/-- Why a statement is refused. -/
inductive InvalidRequest where
  | notCreateTable (kind : String)
  | badName (kind : ObjectKind) (name : String)
  | hasIndexes (table : String)
  | rowWidth (row : Row) (table : String) (columns : Nat)
  | noColumn (column : String)
  | keyColumn (e : LookupError)
deriving DecidableEq, Repr

def InvalidRequest.message : InvalidRequest → String
  | notCreateTable kind => "Expected CREATE TABLE, got " ++ kind
  | badName kind name => "Invalid " ++ kind.name ++ " name: " ++ Text.quoted name
  | hasIndexes table => "Table " ++ table ++ " has indexes; load rows before creating them"
  | rowWidth row table columns =>
    s!"Row {row.display} has {row.length} values, table {table} has {columns} columns"
  | noColumn column => "No column " ++ column
  | keyColumn e => e.message

inductive EngineError where
  | catalog (e : CatalogError)
  | planning (e : PlannerError)
  | execution (block : BlockId) (e : ExecError)
  | index (e : Index.Error)
  | storage (e : StorageError)
  | dispatch (e : DispatchError)
  | invalidRequest (reason : InvalidRequest)
  | io (e : IoError)
deriving DecidableEq, Repr

namespace EngineError

def message : EngineError → String
  | catalog e => e.message
  | planning e => e.display
  | execution block e => "Block " ++ block.display ++ " failed: " ++ e.display
  | index e => e.display
  | storage e => e.display
  | dispatch e => e.message
  | invalidRequest reason => "Invalid request: " ++ reason.message
  | io e => "I/O error: " ++ e.message

def isFatal : EngineError → Bool
  | execution _ e => e.isFatal
  | index e => e.isFatal
  | storage e => e.isFatal
  | _ => false

end EngineError
end BlockQuery
