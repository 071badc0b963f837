import BlockQuery.Block

/-!
# Dispatching blocks

Blocks are handed over for execution through a dispatcher, which answers with a
handle and tells by it how far a block is.  A channel is the dispatcher of a
queue: blocks wait in it until its owner takes them out and reports on them.
-/

namespace BlockQuery

structure DispatchRequest where
  block : Block
  terminal : Bool
deriving DecidableEq, Repr

structure DispatchHandle where
  id : Nat
  block : BlockId
deriving DecidableEq, Repr

inductive BlockState where
  | queued
  | running
  | succeeded (rows : Nat)
  | failed (reason : String) (fatal : Bool)
  | unknown
deriving DecidableEq, Repr

namespace BlockState

def isFinished : BlockState → Bool
  | succeeded _ | failed .. => true
  | _ => false

def hasSucceeded : BlockState → Bool
  | succeeded _ => true
  | _ => false

def display : BlockState → String
  | queued => "QUEUED"
  | running => "RUNNING"
  | succeeded rows => s!"SUCCEEDED ({rows} rows)"
  | failed reason _ => "FAILED (" ++ reason ++ ")"
  | unknown => "UNKNOWN"

end BlockState

inductive DispatchError where
  | queueClosed
  | notDispatched (block : BlockId)
  | notSucceeded (block : BlockId) (state : BlockState)
deriving DecidableEq, Repr

def DispatchError.message : DispatchError → String
  | queueClosed => "Dispatch queue closed"
  | notDispatched block => "Block " ++ block.display ++ " was never dispatched"
  | notSucceeded block state => "Block " ++ block.display ++ " ended as " ++ state.display

/-- What takes blocks over, with a state of its own. -/
structure Dispatcher (Q : Type) where
  submit : DispatchRequest → Q → Except DispatchError DispatchHandle × Q
  status : DispatchHandle → Q → BlockState

/-- A request that waits, with its handle. -/
structure Dispatched where
  handle : DispatchHandle
  request : DispatchRequest
deriving DecidableEq, Repr

structure Channel where
  nextId : Nat
  /-- Whether somebody still owns the queue. -/
  isOpen : Bool
  waiting : List Dispatched
  /-- The last reports by the ids of handles. -/
  states : List (Nat × BlockState)
deriving DecidableEq, Repr

namespace Channel

def start : Channel := ⟨1, true, [], []⟩

def status (handle : DispatchHandle) (c : Channel) : BlockState :=
  (c.states.lookup handle.id).getD .unknown

def report (c : Channel) (handle : DispatchHandle) (state : BlockState) : Channel :=
  { c with states := (handle.id, state) :: c.states }

@[simp] theorem status_report (c : Channel) (a b : DispatchHandle) (state : BlockState) :
    (c.report a state).status b = if b.id = a.id then state else c.status b := by
  unfold report status
  by_cases h : b.id = a.id
  · simp [h]
  · have hne : (b.id == a.id) = false := by simpa using h
    simp [List.lookup_cons, h, hne]

/-- Puts a block into the queue.  A queue without an owner loses it, and then
the handle is spent. -/
def submit (request : DispatchRequest) (c : Channel) :
    Except DispatchError DispatchHandle × Channel :=
  let handle : DispatchHandle := ⟨c.nextId, request.block.id⟩
  let c := { c with nextId := c.nextId + 1 }.report handle .queued
  if c.isOpen then (.ok handle, { c with waiting := c.waiting ++ [⟨handle, request⟩] })
  else (.error .queueClosed, c)

def dispatcher : Dispatcher Channel := ⟨submit, status⟩

/-- The block that waits longest. -/
def take? (c : Channel) : Option (Dispatched × Channel) :=
  match c.waiting with
  | [] => none
  | d :: ds => some (d, { c with waiting := ds })

/-- The channel when the owner of the queue is gone. -/
def abandon (c : Channel) : Channel := { c with isOpen := false, waiting := [] }

end Channel
end BlockQuery
