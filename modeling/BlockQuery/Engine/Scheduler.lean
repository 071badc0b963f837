import BlockQuery.Engine.Dispatch
import BlockQuery.Host
import BlockQuery.MasterPlan

/-!
# Scheduling

A scheduler submits the blocks of a master plan in the order of its cursor, and
a block only when all its inputs have succeeded.  A block that has to wait for
its inputs is the next one again.
-/

namespace BlockQuery

structure Scheduler where
  plan : MasterPlan
  cursor : BlockCursor
  /-- A block that the cursor emitted and that had to wait. -/
  pending : Option Block
  /-- The handles of the blocks submitted, the last one first. -/
  handles : List (BlockId × DispatchHandle)
deriving Repr

namespace Scheduler

variable {Q : Type}

def start (plan : MasterPlan) : Scheduler := ⟨plan, plan.cursor, none, []⟩

def hasNext (s : Scheduler) : Bool := s.pending.isSome || s.cursor.hasNext

def handle? (s : Scheduler) (block : BlockId) : Option DispatchHandle := s.handles.lookup block

/-- How far a block is that was submitted. -/
def status (s : Scheduler) (dispatcher : Dispatcher Q) (queue : Q) (block : BlockId) :
    Except DispatchError BlockState :=
  match s.handle? block with
  | none => .error (.notDispatched block)
  | some handle => .ok (dispatcher.status handle queue)

/-- Whether all of some blocks have succeeded. -/
def awaitInputs (s : Scheduler) (dispatcher : Dispatcher Q) (queue : Q) :
    List BlockId → Except DispatchError Unit
  | [] => .ok ()
  | input :: rest =>
    match s.status dispatcher queue input with
    | .error e => .error e
    | .ok state =>
      if state.hasSucceeded then awaitInputs s dispatcher queue rest
      else .error (.notSucceeded input state)

/-- The block that is to be submitted next, and the scheduler without it. -/
def candidate? (s : Scheduler) : Option (Block × Scheduler) :=
  match s.pending with
  | some b => some (b, { s with pending := none })
  | none => do
    let (id, cursor) ← s.cursor.next?
    return (← s.plan.block? id, { s with cursor := cursor })

/-- What is reported of a block that was submitted. -/
def dispatchFields (b : Block) (handle : DispatchHandle) : LogFields :=
  [("block", b.id.display), ("handle", toString handle.id), ("output", b.output.display)]

/-- Submits the next block: its handle, or nothing when there is none left. -/
def advance (s : Scheduler) (dispatcher : Dispatcher Q) (queue : Q) (host : Host) :
    Except DispatchError (Option DispatchHandle) × Scheduler × Q × Host :=
  match s.candidate? with
  | none => (.ok none, s, queue, host)
  | some (b, rest) =>
    match rest.awaitInputs dispatcher queue b.inputs with
    | .error e => (.error e, { rest with pending := some b }, queue, host)
    | .ok _ =>
      match dispatcher.submit ⟨b, b.id == s.plan.terminal⟩ queue with
      | (.error e, queue) => (.error e, rest, queue, host)
      | (.ok handle, queue) =>
        (.ok (some handle), { rest with handles := (b.id, handle) :: rest.handles }, queue,
          (host.count .blocksDispatched 1).report .blockDispatched (dispatchFields b handle))

end Scheduler
end BlockQuery
