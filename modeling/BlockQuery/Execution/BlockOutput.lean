import BlockQuery.Block
import BlockQuery.Host
import BlockQuery.Log.Scope
import BlockQuery.Operator.OfPlan
import BlockQuery.RowFile.Appender

/-!
# Running blocks

A block runs by writing the rows of its plan to a file.  When it fails the file
holds the rows that came before.
-/

namespace BlockQuery

structure BlockOutput where
  seq : UInt32
  rows : Nat
  fragment : Fragment
deriving DecidableEq, Repr

namespace RowSource

/-- Writes all rows of a source to the end of a file: the appender and the disk
afterwards, what ended the rows, and the work that was done.  The execution is
cancelled after a number of calls of the source, if at all. -/
def appendTo (src : RowSource) (cancelAt : Option Nat) (appender : RowAppender) (disk : Disk) :
    (RowAppender × Disk) × Except ExecError Unit × Tally :=
  match src.init (cancelAt == some 0) src.start with
  | (.error e, s) => ((appender, disk), .error e, src.tally (src.close s))
  | (.ok _, s) =>
    let (written, result, s) := src.foldUntil (cancelAt.map Nat.pred)
      (fun row (a, d) => .ok (a.append d row)) s (appender, disk)
    (written, result, src.tally (src.close s))

end RowSource

namespace Block

/-- The rows of a block written to a file, and their number. -/
def writeRows (b : Block) (ctx : TaskContext) (cancelAt : Option Nat) (path : String) (host : Host) :
    Except ExecError Nat × Host :=
  match Operator.ofPlan ctx b.plan with
  | .error e => (.error e, host)
  | .ok operator =>
    match RowAppender.create host.disk path with
    | (.error e, disk) => (.error (.storage e), { host with disk := disk })
    | (.ok appender, disk) =>
      let ((appender, disk), result, tally) :=
        (operator.source disk).appendTo cancelAt appender disk
      let (_, disk) := appender.close disk
      (result.map fun _ => appender.rows,
        { host with disk := disk, counters := host.counters.addTally tally })

/-- A failure in the log; one that tells of damaged data is an event as well. -/
def reportFailure (scope : Scope) (id : String) (e : ExecError) (host : Host) : Host :=
  let host :=
    if e.isFatal then host.report .dataDamaged [("block", id), ("reason", e.display)] else host
  let level := if e.isFatal then LogLevel.fatal else LogLevel.error
  { host with log := (scope.fail level e.display host.log).2 }

/-- Runs a block in a scope of the log. -/
def run (b : Block) (ctx : TaskContext) (cancelAt : Option Nat) (path : String) (host : Host) :
    Except ExecError BlockOutput × Host :=
  let id := b.id.display
  let (scope, log) := Scope.enter "BLOCK_EXEC" [("block", id)] host.log
  match b.writeRows ctx cancelAt path { host with log := log } with
  | (.error e, host) => (.error e, reportFailure scope id e host)
  | (.ok rows, host) =>
    (.ok ⟨b.id.seq, rows, ⟨s!"block_{b.id.seq.toNat}", path⟩⟩,
      { host with log := (scope.complete [("rows", toString rows)] host.log).2 })

end Block
end BlockQuery
