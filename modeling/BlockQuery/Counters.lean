import BlockQuery.Json
import BlockQuery.RowSource

/-!
# Counters

What the program has done so far, in words of 64 bits that start anew from zero
when they overflow.
-/

namespace BlockQuery

inductive Counter where
  | plansBuilt
  | queriesRejected
  | rulesApplied
  | blocksDispatched
  | blocksCompleted
  | blocksFailed
  | indexEntriesWritten
  | indexLookups
  | rowsScanned
deriving DecidableEq, Repr

structure Counters where
  plansBuilt : UInt64
  queriesRejected : UInt64
  rulesApplied : UInt64
  blocksDispatched : UInt64
  blocksCompleted : UInt64
  blocksFailed : UInt64
  indexEntriesWritten : UInt64
  indexLookups : UInt64
  rowsScanned : UInt64
deriving DecidableEq, Repr

namespace Counters

def zero : Counters := ⟨0, 0, 0, 0, 0, 0, 0, 0, 0⟩

def get (c : Counters) : Counter → UInt64
  | .plansBuilt => c.plansBuilt
  | .queriesRejected => c.queriesRejected
  | .rulesApplied => c.rulesApplied
  | .blocksDispatched => c.blocksDispatched
  | .blocksCompleted => c.blocksCompleted
  | .blocksFailed => c.blocksFailed
  | .indexEntriesWritten => c.indexEntriesWritten
  | .indexLookups => c.indexLookups
  | .rowsScanned => c.rowsScanned

/-- The counters with one of them raised. -/
def add (c : Counters) (counter : Counter) (n : Nat) : Counters :=
  let n := UInt64.ofNat n
  match counter with
  | .plansBuilt => { c with plansBuilt := c.plansBuilt + n }
  | .queriesRejected => { c with queriesRejected := c.queriesRejected + n }
  | .rulesApplied => { c with rulesApplied := c.rulesApplied + n }
  | .blocksDispatched => { c with blocksDispatched := c.blocksDispatched + n }
  | .blocksCompleted => { c with blocksCompleted := c.blocksCompleted + n }
  | .blocksFailed => { c with blocksFailed := c.blocksFailed + n }
  | .indexEntriesWritten => { c with indexEntriesWritten := c.indexEntriesWritten + n }
  | .indexLookups => { c with indexLookups := c.indexLookups + n }
  | .rowsScanned => { c with rowsScanned := c.rowsScanned + n }

theorem get_add (c : Counters) (a b : Counter) (n : Nat) :
    (c.add a n).get b = if a = b then c.get b + UInt64.ofNat n else c.get b := by
  cases a <;> cases b <;> simp [add, get]

/-- The counters with the work of a source added. -/
def addTally (c : Counters) (t : Tally) : Counters :=
  (c.add .rowsScanned t.scanned).add .indexLookups t.lookups

def toJson (c : Counters) : Json :=
  .object ([("plans_built", c.plansBuilt), ("queries_rejected", c.queriesRejected),
    ("rewrites_applied", c.rulesApplied), ("blocks_dispatched", c.blocksDispatched),
    ("blocks_completed", c.blocksCompleted), ("blocks_failed", c.blocksFailed),
    ("index_entries_written", c.indexEntriesWritten), ("index_lookups", c.indexLookups),
    ("tuples_scanned", c.rowsScanned)].map fun (name, n) => (name, .whole n.toNat))

end Counters
end BlockQuery
