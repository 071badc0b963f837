import BlockQuery.Block

/-!
# The order of blocks

A cursor emits blocks one by one, each after the blocks that it reads.  It
counts for every block the inputs that have not been emitted yet; blocks whose
count has come to zero wait in a queue, in the order in which that happened.
-/

namespace BlockQuery

structure BlockCursor where
  blocks : List Block
  /-- The number of inputs that each block still waits for. -/
  pending : List (BlockId × Nat)
  frontier : List BlockId
  emitted : Nat
deriving DecidableEq, Repr

namespace BlockCursor

def start (blocks : List Block) : BlockCursor where
  blocks := blocks
  pending := blocks.map fun b => (b.id, b.inputs.length)
  frontier := (blocks.filter Block.isLeaf).map (·.id)
  emitted := 0

def hasNext (c : BlockCursor) : Bool := !c.frontier.isEmpty

def remaining (c : BlockCursor) : Nat := c.blocks.length - c.emitted

/-- The blocks that list an input, once for every time they do. -/
def waiting (c : BlockCursor) (input : BlockId) : List BlockId :=
  c.blocks.flatMap fun b => (b.inputs.filter (· == input)).map fun _ => b.id

/-- Takes one off the count of a block, which becomes ready at zero. -/
def settle (c : BlockCursor) (reader : BlockId) : BlockCursor :=
  let pending := c.pending.map fun (id, n) => if id = reader then (id, n - 1) else (id, n)
  { c with
    pending := pending
    frontier := if pending.lookup reader = some 0 then c.frontier ++ [reader] else c.frontier }

/-- The next block and the cursor after it. -/
def next? (c : BlockCursor) : Option (BlockId × BlockCursor) :=
  match c.frontier with
  | [] => none
  | id :: rest =>
    some (id, (c.waiting id).foldl settle { c with frontier := rest, emitted := c.emitted + 1 })

/-- The first blocks that a cursor emits, and the cursor after them. -/
def take : Nat → BlockCursor → List BlockId × BlockCursor
  | 0, c => ([], c)
  | n + 1, c =>
    match c.next? with
    | none => ([], c)
    | some (id, c) =>
      let (ids, c) := take n c
      (id :: ids, c)

/-- All blocks that a cursor emits.  No block comes twice. -/
def drain (c : BlockCursor) : List BlockId × BlockCursor := take c.blocks.length c

end BlockCursor
end BlockQuery
