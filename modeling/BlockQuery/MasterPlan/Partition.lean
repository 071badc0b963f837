import BlockQuery.Expr.Typing
import BlockQuery.MasterPlan
import BlockQuery.Plan.Builder

/-!
# Partition of a query into blocks

Every join, sort and grouping gets its inputs from blocks of their own, which
are numbered from the bottom up and from left to right.  If the topmost of
these operations stands below filters and projections, it is put into one more
block, so that the terminal block only reads rows and passes them on.

With a catalog at hand, tables and aggregates have to be known to it, and scans
without a row hint get the row count of their table.
-/

namespace BlockQuery
namespace Partition

/-- The plan of a block that is not closed yet. -/
structure Piece where
  plan : Plan
  inputs : List BlockId
  rowHint : Option UInt64
deriving DecidableEq, Repr

/-- The blocks that are closed, in the order of their numbers. -/
structure State where
  query : QueryId
  nextSeq : UInt32
  blocks : List Block
deriving DecidableEq, Repr

/-- Closes a piece as a block with the next number. -/
def close (s : State) (piece : Piece) (output : Shuffle) : BlockId × State :=
  let id : BlockId := ⟨s.query, s.nextSeq⟩
  (id, { s with
    nextSeq := s.nextSeq + 1
    blocks := s.blocks ++ [⟨id, piece.inputs, output, piece.rowHint, piece.plan⟩] })

/-- A scan of the rows of a block that has a plan. -/
def scanOf (id : BlockId) (piece : Piece) : Plan :=
  .scanBlock id.seq piece.plan.schema piece.rowHint

/-- The row hint of a join: the larger one, if both are known. -/
def largerHint : Option UInt64 → Option UInt64 → Option UInt64
  | some l, some r => some (if l ≤ r then r else l)
  | _, _ => none

def refuse {α : Type} (fault : PlanFault) : Except PlannerError α := .error (.planning none fault)

/-- An aggregate has to be known for its argument with the type of its column. -/
def checkAggregate (c : Catalog) (input : Schema) (a : Aggregate) (column : Column) :
    Except PlannerError Unit := do
  let arguments ← match a.argument with
    | none => pure []
    | some e => match e.typeIn input with
      | .ok t => pure [t]
      | .error fault => refuse (.argument fault)
  match c.getFunction a.function.name arguments with
  | .error fault => refuse (.catalog fault)
  | .ok f =>
    if f.kind = .aggregate ∧ f.returns = column.type then pure ()
    else refuse (.aggregate f a.name column.type)

/-- Checks the aggregates of a grouping against the columns after its keys. -/
def checkAggregates (c : Catalog) (input : Schema) :
    List Aggregate → List Column → Except PlannerError Unit
  | a :: as, column :: columns => do
    checkAggregate c input a column
    checkAggregates c input as columns
  | _, _ => .ok ()

/-- Closes all blocks below a plan. -/
def visit (catalog : Option Catalog) : Plan → State → Except PlannerError (Piece × State)
  | .scan scan, s =>
    match scan.source with
    | .block seq => refuse (.readsBlock seq)
    | .table name =>
      match catalog with
      | none => .ok (⟨.scan scan, [], scan.rowHint⟩, s)
      | some c =>
        match c.getTable name with
        | .error fault => refuse (.catalog fault)
        | .ok t =>
          let hint := scan.rowHint <|> t.rowCount
          .ok (⟨.scan { scan with rowHint := hint }, [], hint⟩, s)
  | .filter predicate input, s => do
    let (piece, s) ← visit catalog input s
    return ({ piece with plan := .filter predicate piece.plan }, s)
  | .project targets input schema, s => do
    let (piece, s) ← visit catalog input s
    return ({ piece with plan := .project targets piece.plan schema }, s)
  | .join type condition left right schema, s => do
    let pairs := (condition.map (Expr.equiPairs left.schema right.schema)).getD []
    let (l, s) ← visit catalog left s
    let (leftId, s) := close s l (.hash (pairs.map (·.1)))
    let (r, s) ← visit catalog right s
    let (rightId, s) := close s r (.hash (pairs.map (·.2)))
    return (⟨.join type condition (scanOf leftId l) (scanOf rightId r) schema, [leftId, rightId],
      largerHint l.rowHint r.rowHint⟩, s)
  | .sort specs input, s => do
    let (piece, s) ← visit catalog input s
    let (id, s) := close s piece (.range specs)
    return (⟨.sort specs (scanOf id piece), [id], piece.rowHint⟩, s)
  | .groupBy keys aggregates input schema, s => do
    match catalog with
    | some c => checkAggregates c input.schema aggregates (schema.drop keys.length)
    | none => pure ()
    let (piece, s) ← visit catalog input s
    let (id, s) := close s piece (.hash keys)
    return (⟨.groupBy keys aggregates (scanOf id piece) schema, [id], piece.rowHint⟩, s)
  | .root _, _ => refuse .innerRoot
  | .createTable name .., _ => refuse (.innerCreate name)

/-- Takes the topmost blocking node from below filters and projections: what
stands above a scan of the block `seq`, and the node itself. -/
def detach (seq : UInt32) (rowHint : Option UInt64) : Plan → Option (Plan × Plan)
  | .filter predicate input =>
    (detach seq rowHint input).map fun (upper, lower) => (.filter predicate upper, lower)
  | .project targets input schema =>
    (detach seq rowHint input).map fun (upper, lower) => (.project targets upper schema, lower)
  | p => if p.isBlocking then some (.scanBlock seq p.schema rowHint, p) else none

/-- The shuffle of a detached node. -/
def detachedOutput : Plan → Shuffle
  | .sort specs _ => .range specs
  | _ => .hash []

/-- Closes the last piece as the terminal block. -/
def finish (s : State) (top : Piece) : BlockId × State :=
  if top.plan.isBlocking then close s top .none
  else match detach s.nextSeq top.rowHint top.plan with
    | some (upper, lower) =>
      let (id, s) := close s { top with plan := lower } (detachedOutput lower)
      close s ⟨upper, [id], top.rowHint⟩ .none
    | none => close s top .none

end Partition

open BlockQuery.Partition

/-- The master plan of a query. -/
def MasterPlan.ofPlan (catalog : Option Catalog) (query : QueryId) (p : Plan) :
    Except PlannerError MasterPlan :=
  match p with
  | .root (.createTable name ..) => refuse (.createTable name)
  | .root child => do
    if child.scans.isEmpty then refuse .noScan
    let (top, s) ← visit catalog child ⟨query, 1, []⟩
    let (terminal, s) := finish s top
    MasterPlan.ofBlocks query s.blocks terminal
  | p => refuse (.notRoot p.kind)

end BlockQuery
