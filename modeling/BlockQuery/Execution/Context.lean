import BlockQuery.Execution.Error
import BlockQuery.Index.Reader
import BlockQuery.RowFile.Reader

/-!
# What a plan is executed on

The context of an execution holds the files of tables, the outputs of blocks
that have run, and opened indexes.
-/

namespace BlockQuery

/-- An opened index, and the file whose rows it lists. -/
structure IndexBinding where
  table : String
  column : String
  data : Fragment
  reader : Index.Reader
deriving Repr

structure TaskContext where
  /-- The fragments of tables, in the order in which they were added. -/
  tables : List (String × Fragment)
  outputs : List (UInt32 × Fragment)
  indexes : List IndexBinding
deriving Repr

namespace TaskContext

def empty : TaskContext := ⟨[], [], []⟩

def addTable (ctx : TaskContext) (table : String) (fragment : Fragment) : TaskContext :=
  { ctx with tables := ctx.tables ++ [(table, fragment)] }

def addOutput (ctx : TaskContext) (seq : UInt32) (fragment : Fragment) : TaskContext :=
  { ctx with outputs := ctx.outputs ++ [(seq, fragment)] }

def addIndex (ctx : TaskContext) (binding : IndexBinding) : TaskContext :=
  { ctx with indexes := ctx.indexes ++ [binding] }

def filesOf (ctx : TaskContext) (table : String) : List Fragment :=
  (ctx.tables.filter (·.1 == table)).map (·.2)

def outputFragments (ctx : TaskContext) (seq : UInt32) : List Fragment :=
  (ctx.outputs.filter (·.1 == seq)).map (·.2)

/-- The fragments of a table, of which there has to be one. -/
def getTable (ctx : TaskContext) (table : String) : Except ExecError (List Fragment) :=
  match ctx.filesOf table with
  | [] => .error (.invalidPlan (.noFragments table))
  | fragments => .ok fragments

/-- The output of a block, which has to be there. -/
def getOutput (ctx : TaskContext) (seq : UInt32) : Except ExecError (List Fragment) :=
  match ctx.outputFragments seq with
  | [] => .error (.invalidPlan (.noOutput seq))
  | fragments => .ok fragments

/-- The indexes of a table, which are of use if all its rows are in one file. -/
def indexesOn (ctx : TaskContext) (table : String) : List IndexBinding :=
  match ctx.filesOf table with
  | [fragment] => ctx.indexes.filter fun b => b.table == table && b.data == fragment
  | _ => []

end TaskContext
end BlockQuery
