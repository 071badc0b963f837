import BlockQuery.Block
import BlockQuery.Catalog

/-!
# Refusals of master plans
-/

namespace BlockQuery

/-- Why a query cannot be planned. -/
inductive PlanFault where
  | notRoot (kind : String)
  | createTable (name : String)
  | noScan
  | readsBlock (seq : UInt32)
  | innerRoot
  | innerCreate (name : String)
  | catalog (e : CatalogError)
  | argument (e : PlanError)
  | aggregate (f : FunctionEntry) (name : String) (expected : DataType)
  | noBlocks
  | foreignBlock (owner query : QueryId)
  | duplicateBlock
  | noTerminal
  | readsItself
  | inputMissing (id : BlockId)
  | inputTwice (id : BlockId)
  | scansDiffer (scanned inputs : List UInt32)
  | terminalShuffles
  | shuffleMissing
  | terminalRead
  | neverRead
  | cycle
  | fusedInput (id : BlockId)
  | other (text : String)
deriving DecidableEq, Repr

/-- Numbers in braces. -/
def displaySet (ns : List UInt32) : String :=
  "\x7b" ++ ", ".intercalate (ns.map fun n => n.toNat.repr) ++ "\x7d"

def PlanFault.message : PlanFault → String
  | notRoot kind => "Plan must start at ROOT, found " ++ kind
  | createTable name =>
    "CREATE TABLE " ++ name ++ " is not a query; execute it through the coordinator"
  | noScan => "Plan has no scan leaf"
  | readsBlock seq => s!"Query plans cannot read intermediate block #{seq.toNat}"
  | innerRoot => "ROOT may only appear at the top"
  | innerCreate name => "CREATE TABLE " ++ name ++ " cannot appear inside a query"
  | catalog e => e.message
  | argument e => e.message
  | aggregate f name expected =>
    f.signature ++ " is a " ++ f.kind.name ++ " function returning " ++ f.returns.name ++ ", " ++
      name ++ " expects " ++ expected.name
  | noBlocks => "A master plan needs at least one block"
  | foreignBlock owner query =>
    "Block belongs to query " ++ owner.display ++ ", plan is for " ++ query.display
  | duplicateBlock => "Duplicate block id"
  | noTerminal => "Terminal block is not in the plan"
  | readsItself => "Block reads itself"
  | inputMissing id => "Input " ++ id.display ++ " does not exist"
  | inputTwice id => "Input " ++ id.display ++ " listed twice"
  | scansDiffer scanned inputs =>
    "Intermediate scans " ++ displaySet scanned ++ " do not match inputs " ++ displaySet inputs
  | terminalShuffles => "Terminal block must not shuffle its output"
  | shuffleMissing => "Only the terminal block may have no output shuffle"
  | terminalRead => "Terminal block has consumers"
  | neverRead => "Block output is never read; a plan has exactly one sink"
  | cycle => "Execution blocks form a cycle"
  | fusedInput id => "Input " ++ id.display ++ " missing"
  | other text => text

inductive PlannerError where
  | planning (block : Option BlockId) (fault : PlanFault)
  | limit (maxRuleUses : Nat) (rule : String)
deriving DecidableEq, Repr

namespace PlannerError

def code : PlannerError → String
  | planning .. => "TESSERA_PLANNING_ERROR"
  | limit .. => "TESSERA_OPTIMIZATION_LIMIT_EXCEEDED"

def severityName : String := "REJECT"

def block? : PlannerError → Option BlockId
  | planning block _ => block
  | limit .. => none

def message : PlannerError → String
  | planning _ fault => fault.message
  | limit maxRuleUses rule =>
    s!"No fixpoint after {maxRuleUses} rewrites; rule '{rule}' still applies"

/-- The message, with the block that it is about. -/
def reason (e : PlannerError) : String :=
  e.message ++ match e.block? with
    | some id => " (block: " ++ id.display ++ ")"
    | none => ""

def display (e : PlannerError) : String := "[" ++ severityName ++ "] " ++ e.code ++ ": " ++ e.reason

end PlannerError
end BlockQuery
