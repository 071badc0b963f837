import BlockQuery.Expr.Eval
import BlockQuery.Index.Error
import BlockQuery.Plan.Error
import BlockQuery.RowFile.Error

/-!
# Errors of execution
-/

namespace BlockQuery

/-- Why a plan cannot be executed. -/
inductive InvalidPlan where
  | unbound (e : LookupError) (schema : Schema)
  | lookup (e : LookupError)
  | aggregate (e : PlanError)
  | aggregateShape (schema : Schema) (keys aggregates : Nat)
  | noFragments (table : String)
  | noOutput (seq : UInt32)
  | notExecutable (table : String)
  | rowWidth (width : Nat) (schema : Schema)
  | scanBeforeInit
  | noProjection
  | noSelection
  | other (text : String)
deriving DecidableEq, Repr

def InvalidPlan.message : InvalidPlan → String
  | unbound e schema => e.message ++ " in " ++ schema.display
  | lookup e => e.message
  | aggregate e => e.message
  | aggregateShape schema keys aggregates =>
    s!"Aggregate output {schema.display} does not match {keys} keys and {aggregates} aggregates"
  | noFragments table => "No data fragments for table " ++ table
  | noOutput seq => s!"Output of block #{seq.toNat} is not available"
  | notExecutable table => "CREATE TABLE " ++ table ++ " is not executable"
  | rowWidth width schema =>
    s!"Stored row has {width} values, scan schema {schema.display} has {schema.length}"
  | scanBeforeInit => "Index scan used before init"
  | noProjection => "Index scan does not project"
  | noSelection => "Index scan does not filter"
  | other text => text

inductive ExecError where
  | cancelled
  | invalidPlan (reason : InvalidPlan)
  | eval (e : EvalError)
  | storage (e : StorageError)
  | index (e : Index.Error)
deriving DecidableEq, Repr

namespace ExecError

/-- A pattern that is too large counts as a failed evaluation. -/
def ofBind : BindError → ExecError
  | .lookup e schema => invalidPlan (.unbound e schema)
  | .pattern pattern => eval (.patternTooLarge pattern)

def code : ExecError → String
  | cancelled => "TESSERA_EXEC_CANCELLED"
  | invalidPlan _ => "TESSERA_EXEC_INVALID_PLAN"
  | eval _ => "TESSERA_EXEC_EVAL_ERROR"
  | storage _ => "TESSERA_EXEC_STORAGE"
  | index _ => "TESSERA_EXEC_INDEX"

/-- Damage to stored data is fatal, whoever reads them. -/
def severity : ExecError → Severity
  | storage e => e.severity
  | index e => e.severity
  | _ => .error

def isFatal (e : ExecError) : Bool := e.severity == .fatal

def message : ExecError → String
  | cancelled => "Execution cancelled"
  | invalidPlan reason => reason.message
  | eval e => e.message
  | storage e => e.display
  | index e => e.display

def display (e : ExecError) : String := errorLine e.severity.name e.code e.message none none

end ExecError
end BlockQuery
