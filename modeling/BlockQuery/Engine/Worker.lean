import BlockQuery.Engine.Error
import BlockQuery.Execution.BlockOutput

/-!
# Workers

A worker owns the queue of a channel.  It takes blocks out one at a time, runs
them with the outputs of earlier ones as inputs, and reports how they ended.
-/

namespace BlockQuery

structure Worker where
  ctx : TaskContext
  /-- The number of calls of a block's source after which the execution is
  cancelled, if it is. -/
  cancelAt : Option Nat
  /-- The directory of the outputs. -/
  workDir : String
  /-- The outputs of blocks that have succeeded, the last one first. -/
  outputs : List BlockOutput
deriving Repr

namespace Worker

def start (ctx : TaskContext) (workDir : String) : Worker := ⟨ctx, none, workDir, []⟩

def output? (w : Worker) (seq : UInt32) : Option BlockOutput := w.outputs.find? (·.seq == seq)

def outputPath (w : Worker) (b : Block) : String :=
  Path.join w.workDir s!"block_{b.id.seq.toNat}.rows"

/-- The worker after a block has succeeded: others can read its output. -/
def register (w : Worker) (o : BlockOutput) : Worker :=
  { w with ctx := w.ctx.addOutput o.seq o.fragment, outputs := o :: w.outputs }

/-- What is reported of a block that has succeeded. -/
def completionFields (request : DispatchRequest) (rows : Nat) : LogFields :=
  [("block", request.block.id.display), ("rows", toString rows),
    ("terminal", if request.terminal then "true" else "false")]

/-- Runs a block that was taken out of the queue. -/
def execute (w : Worker) (d : Dispatched) (channel : Channel) (host : Host) :
    Except EngineError BlockOutput × Worker × Channel × Host :=
  let channel := channel.report d.handle .running
  let (made, disk) := host.disk.createDirectories w.workDir
  let host := { host with disk := disk }
  match made with
  | .error e => (.error (.io e), w, channel, host)
  | .ok _ =>
    let b := d.request.block
    match b.run w.ctx w.cancelAt (w.outputPath b) host with
    | (.ok o, host) =>
      (.ok o, w.register o, channel.report d.handle (.succeeded o.rows),
        (host.count .blocksCompleted 1).report .blockCompleted (completionFields d.request o.rows))
    | (.error e, host) =>
      (.error (.execution b.id e), w, channel.report d.handle (.failed e.display e.isFatal),
        (host.count .blocksFailed 1).report .blockFailed
          [("block", b.id.display), ("reason", e.display)])

/-- Runs the block that waits longest, if there is one. -/
def step (w : Worker) (channel : Channel) (host : Host) :
    Except EngineError (Option BlockOutput) × Worker × Channel × Host :=
  match channel.take? with
  | none => (.ok none, w, channel, host)
  | some (d, channel) =>
    match w.execute d channel host with
    | (.ok o, rest) => (.ok (some o), rest)
    | (.error e, rest) => (.error e, rest)

/-- Runs given blocks up to the first one that fails, and counts them. -/
def runAll (w : Worker) (channel : Channel) (host : Host) (ran : Nat) :
    List Dispatched → Except EngineError Nat × Worker × Channel × Host
  | [] => (.ok ran, w, channel, host)
  | d :: ds =>
    match w.execute d channel host with
    | (.error e, rest) => (.error e, rest)
    | (.ok _, w, channel, host) => runAll w channel host (ran + 1) ds

/-- Runs all blocks that wait in a channel to which no more will come. -/
def serve (w : Worker) (channel : Channel) (host : Host) :
    Except EngineError Nat × Worker × Channel × Host :=
  runAll w { channel with waiting := [] } host 0 channel.waiting

end Worker
end BlockQuery
