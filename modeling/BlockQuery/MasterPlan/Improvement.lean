import BlockQuery.MasterPlan
import BlockQuery.Plan.Builder

/-!
# Improving master plans

Two rules change a master plan without changing its answer.  Fusion joins a
block that only filters and projects the rows of one other block, and is its
only reader, with that block.  Broadcast marking has the smaller input of a
join handed to everyone.  The rules are applied until none fires any more; the
number of uses is capped.
-/

namespace BlockQuery

/-- A plan with every scan replaced. -/
def Plan.replaceScans (f : Scan → Plan) : Plan → Plan
  | root child => root (child.replaceScans f)
  | scan s => f s
  | join type condition left right schema =>
    join type condition (left.replaceScans f) (right.replaceScans f) schema
  | filter predicate input => filter predicate (input.replaceScans f)
  | groupBy keys aggregates input schema => groupBy keys aggregates (input.replaceScans f) schema
  | sort specs input => sort specs (input.replaceScans f)
  | project targets input schema => project targets (input.replaceScans f) schema
  | createTable table schema store path => createTable table schema store path

/-- Whether a plan only filters and projects the rows of a block. -/
def Plan.isRelay : Plan → Bool
  | filter _ input | project _ input _ => input.isRelay
  | scan s => match s.source with
    | .block _ => true
    | .table _ => false
  | _ => false

/-- A join of the outputs of two blocks. -/
structure BlockJoin where
  type : JoinType
  left : UInt32
  right : UInt32
deriving DecidableEq, Repr

/-- The join of two blocks at a node. -/
def BlockJoin.of? (type : JoinType) : Plan → Plan → Option BlockJoin
  | .scan ⟨.block l, _, _, _⟩, .scan ⟨.block r, _, _, _⟩ => some ⟨type, l, r⟩
  | _, _ => none

/-- The first join of two blocks in a plan, from the top and from the left. -/
def Plan.blockJoin? : Plan → Option BlockJoin
  | join type _ left right _ =>
    BlockJoin.of? type left right <|> (left.blockJoin? <|> right.blockJoin?)
  | root input | filter _ input | groupBy _ _ input _ | sort _ input | project _ input _ =>
    input.blockJoin?
  | scan _ | createTable .. => none

namespace MasterPlan

/-! ## Fusion -/

/-- A block that can be joined with its only input. -/
def isFusible (p : MasterPlan) (b : Block) : Bool :=
  match b.inputs with
  | [input] => b.plan.isRelay && (p.readers input).length == 1
  | _ => false

/-- A plan over the scans of a block, over the plan of that block instead. -/
def inlined (seq : UInt32) (inner : Plan) : Plan → Plan :=
  Plan.replaceScans fun s =>
    if s.source = .block seq then
      match s.filter with
      | some predicate => .filter predicate inner
      | none => inner
    else .scan s

/-- A block that reads `to` where it read `from`. -/
def redirected (source target : BlockId) (b : Block) : Block :=
  { b with
    inputs := b.inputs.map fun id => if id = source then target else id
    plan := b.plan.replaceScans fun s =>
      .scan (if s.source = .block source.seq then { s with source := .block target.seq } else s) }

/-- The block that a parent and its input make up, under the id of the input. -/
def fused (parent child : Block) : Block where
  id := child.id
  inputs := child.inputs
  output := parent.output
  rowHint := parent.rowHint <|> child.rowHint
  plan := inlined child.id.seq child.plan parent.plan

/-- Fuses the first block that can be fused. -/
def fuse (p : MasterPlan) : Except PlannerError (Option MasterPlan) :=
  match p.blocks.find? p.isFusible with
  | none => .ok none
  | some parent =>
    match parent.inputs.head? with
    | none => .ok none
    | some childId =>
      match p.block? childId with
      | none => .error (.planning (some parent.id) (.fusedInput childId))
      | some child =>
        let blocks := (p.blocks.filter fun b => b.id ≠ parent.id).map fun b =>
          if b.id = childId then fused parent child
          else if b.inputs.contains parent.id then redirected parent.id childId b
          else b
        let terminal := if p.terminal = parent.id then childId else p.terminal
        (ofBlocks p.query blocks terminal).map some

/-! ## Broadcast -/

/-- The sides of a join that may be handed to everyone. -/
def broadcastSides (type : JoinType) (left right : Block) : List Block :=
  match type with
  | .leftOuter => [right]
  | .inner | .cross => [left, right]

/-- Fewer rows come first; of equal sides the later block does. -/
def isSmaller (a b : UInt64 × Block) : Bool :=
  a.1 < b.1 || (a.1 == b.1 && b.2.id.seq < a.2.id.seq)

/-- The first of the smallest sides. -/
def smallest? (sides : List (UInt64 × Block)) : Option (UInt64 × Block) :=
  sides.foldl (fun best side =>
    match best with
    | none => some side
    | some b => if isSmaller side b then some side else best) none

/-- The side of a join to be handed to everyone, if one is small enough. -/
def broadcastSide? (p : MasterPlan) (threshold : UInt64) (b : Block) : Option Block := do
  let found ← b.plan.blockJoin?
  let left ← p.blockOfSeq? found.left
  let right ← p.blockOfSeq? found.right
  if left.output = .broadcast ∨ right.output = .broadcast then none
  else
    let single := (broadcastSides found.type left right).filter fun side =>
      (p.readers side.id).length == 1
    let sized := single.filterMap fun side => side.rowHint.map fun rows => (rows, side)
    (smallest? (sized.filter fun side => side.1 ≤ threshold)).map (·.2)

/-- Marks the first side of a join that can be handed to everyone. -/
def markBroadcast (threshold : UInt64) (p : MasterPlan) :
    Except PlannerError (Option MasterPlan) :=
  match p.blocks.findSome? (p.broadcastSide? threshold) with
  | none => .ok none
  | some target =>
    let blocks := p.blocks.map fun b =>
      if b.id = target.id then { b with output := .broadcast } else b
    (ofBlocks p.query blocks p.terminal).map some

end MasterPlan

/-! ## Rules -/

inductive PlanRule where
  | fusion
  | broadcasting (threshold : UInt64)
deriving DecidableEq, Repr

namespace PlanRule

def name : PlanRule → String
  | fusion => "pass_through_fusion"
  | broadcasting _ => "broadcast_join"

def result? : PlanRule → MasterPlan → Except PlannerError (Option MasterPlan)
  | fusion, p => p.fuse
  | broadcasting threshold, p => p.markBroadcast threshold

/-- The rules that are applied to every query. -/
def standard (threshold : UInt64) : List PlanRule :=
  [fusion, broadcasting threshold]

/-- The first rule that fires, and its result. -/
def first? : List PlanRule → MasterPlan → Except PlannerError (Option (PlanRule × MasterPlan))
  | [], _ => .ok none
  | rule :: rules, p => do
    match ← rule.result? p with
    | some next => return some (rule, next)
    | none => first? rules p

end PlanRule

/-- A use of a rule, and the number of blocks after it. -/
structure RuleUse where
  rule : PlanRule
  blocks : Nat
deriving DecidableEq, Repr

namespace MasterPlan

/-- Applies rules as long as one fires, at most `left` more times. -/
def improveFrom (rules : List PlanRule) (cap : Nat) :
    Nat → MasterPlan → List RuleUse × Except PlannerError MasterPlan
  | left, p =>
    match PlanRule.first? rules p with
    | .error e => ([], .error e)
    | .ok none => ([], .ok p)
    | .ok (some (rule, next)) =>
      match left with
      | 0 => ([], .error (.limit cap rule.name))
      | left + 1 =>
        let (done, result) := improveFrom rules cap left next
        (⟨rule, next.blocks.length⟩ :: done, result)

/-- Applies rules until none fires: their uses in order, and the plan or why
there is none. -/
def improve (rules : List PlanRule) (cap : Nat) (p : MasterPlan) :
    List RuleUse × Except PlannerError MasterPlan :=
  improveFrom rules cap cap p

end MasterPlan
end BlockQuery
