import BlockQuery.Plan.Display
import BlockQuery.QueryId

/-!
# Execution blocks

A query is run in blocks, each of which evaluates a plan and leaves its rows to
the blocks that read it.  Blocks of one query are numbered.
-/

namespace BlockQuery

structure BlockId where
  query : QueryId
  seq : UInt32
deriving DecidableEq, Repr

def BlockId.display (id : BlockId) : String := s!"{id.query.display}#{id.seq.toNat}"

/-- How the rows of a block are handed on. -/
inductive Shuffle where
  | none
  | hash (keys : List String)
  | range (specs : List SortSpec)
  | broadcast
deriving DecidableEq, Repr

def Shuffle.display : Shuffle → String
  | none => "NONE"
  | hash keys => "HASH(" ++ ", ".intercalate keys ++ ")"
  | range specs => "RANGE(" ++ ", ".intercalate (specs.map SortSpec.display) ++ ")"
  | broadcast => "BROADCAST"

structure Block where
  id : BlockId
  inputs : List BlockId
  output : Shuffle
  rowHint : Option UInt64
  plan : Plan
deriving DecidableEq, Repr

namespace Block

def isLeaf (b : Block) : Bool := b.inputs.isEmpty

/-- The blocks that read the output of a block. -/
def readers (blocks : List Block) (id : BlockId) : List BlockId :=
  (blocks.filter (·.inputs.contains id)).map (·.id)

end Block
end BlockQuery
