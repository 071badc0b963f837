import BlockQuery.Block.Cursor
import BlockQuery.MasterPlan.Error

/-!
# Master plans

A master plan holds the blocks of a query in the order of their numbers, and
names the terminal one, whose rows are the answer.  Blocks make up a master
plan if every block scans exactly its inputs, the terminal block is the only
one that nobody reads and that does not shuffle its output, and no block needs
its own output in the end.
-/

namespace BlockQuery

structure MasterPlan where
  query : QueryId
  blocks : List Block
  terminal : BlockId
deriving DecidableEq, Repr

namespace MasterPlan

/-- Puts a block in its place among blocks in the order of their numbers. -/
def insertBlock (b : Block) : List Block → List Block
  | [] => [b]
  | c :: cs => if b.id.seq < c.id.seq then b :: c :: cs else c :: insertBlock b cs

/-- Adds a block of the query; none may come twice. -/
def collect (query : QueryId) (blocks : List Block) (b : Block) :
    Except PlannerError (List Block) :=
  if b.id.query ≠ query then .error (.planning (some b.id) (.foreignBlock b.id.query query))
  else if blocks.any (·.id == b.id) then .error (.planning (some b.id) .duplicateBlock)
  else .ok (insertBlock b blocks)

/-- Puts a number in its place in a sorted list without repetitions. -/
def insertNumber (n : UInt32) : List UInt32 → List UInt32
  | [] => [n]
  | m :: ms => if n < m then n :: m :: ms else if n = m then m :: ms else m :: insertNumber n ms

/-- The numbers of a list, sorted and each once. -/
def numberSet (ns : List UInt32) : List UInt32 := ns.foldr insertNumber []

/-- The inputs of a block are other blocks of the plan, each listed once. -/
def checkReads (blocks : List Block) (id : BlockId) (seen : List UInt32) :
    List BlockId → Except PlanFault Unit
  | [] => .ok ()
  | input :: rest =>
    if input = id then .error .readsItself
    else if !(blocks.any (·.id == input)) then .error (.inputMissing input)
    else if seen.contains input.seq then .error (.inputTwice input)
    else checkReads blocks id (input.seq :: seen) rest

/-- What a block alone has to keep to. -/
def checkBlock (blocks : List Block) (terminal : BlockId) (b : Block) : Except PlanFault Unit := do
  checkReads blocks b.id [] b.inputs
  let scanned := numberSet b.plan.scannedBlocks
  let inputs := numberSet (b.inputs.map (·.seq))
  if scanned ≠ inputs then throw (.scansDiffer scanned inputs)
  if b.id = terminal ∧ b.output ≠ .none then throw .terminalShuffles
  if b.id ≠ terminal ∧ b.output = .none then throw .shuffleMissing

/-- The terminal block is read by nobody, every other block by somebody. -/
def checkReaders (blocks : List Block) (terminal : BlockId) (b : Block) : Except PlanFault Unit :=
  let isRead := !(Block.readers blocks b.id).isEmpty
  if b.id = terminal ∧ isRead then .error .terminalRead
  else if b.id ≠ terminal ∧ !isRead then .error .neverRead
  else .ok ()

/-- A fault of a block, with the block that has it. -/
def atBlock (check : Block → Except PlanFault Unit) (b : Block) : Except PlannerError Unit :=
  (check b).mapError (.planning (some b.id))

/-- Every block can be emitted after its inputs. -/
def checkAcyclic (blocks : List Block) : Except PlannerError Unit :=
  let (ids, c) := (BlockCursor.start blocks).drain
  if ids.length = blocks.length then .ok ()
  else .error (.planning ((c.pending.find? (·.2 > 0)).map (·.1)) .cycle)

/-- The master plan of blocks, if they make one up. -/
def ofBlocks (query : QueryId) (blocks : List Block) (terminal : BlockId) :
    Except PlannerError MasterPlan := do
  if blocks.isEmpty then throw (.planning none .noBlocks)
  let sorted ← blocks.foldlM (collect query) []
  if !(sorted.any (·.id == terminal)) then throw (.planning (some terminal) .noTerminal)
  sorted.forM (atBlock (checkBlock sorted terminal))
  sorted.forM (atBlock (checkReaders sorted terminal))
  checkAcyclic sorted
  return ⟨query, sorted, terminal⟩

def block? (p : MasterPlan) (id : BlockId) : Option Block := p.blocks.find? (·.id == id)

def blockOfSeq? (p : MasterPlan) (seq : UInt32) : Option Block := p.block? ⟨p.query, seq⟩

def readers (p : MasterPlan) (id : BlockId) : List BlockId := Block.readers p.blocks id

def edgeCount (p : MasterPlan) : Nat := p.blocks.foldl (fun n b => n + b.inputs.length) 0

def leaves (p : MasterPlan) : List Block := p.blocks.filter Block.isLeaf

/-- A cursor in front of the first block. -/
def cursor (p : MasterPlan) : BlockCursor := BlockCursor.start p.blocks

/-- The blocks in the order in which they are run. -/
def order (p : MasterPlan) : List Block := p.cursor.drain.1.filterMap p.block?

end MasterPlan
end BlockQuery
