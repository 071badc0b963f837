import BlockQuery.Json.Printer
import BlockQuery.MasterPlan
import BlockQuery.Text

/-!
# Explanations

An explanation lists the blocks of a master plan in the order in which they
run, or tells why there is no plan.
-/

namespace BlockQuery

structure ExplainedBlock where
  seq : UInt32
  inputs : List UInt32
  output : String
  rowHint : Option UInt64
  terminal : Bool
  operators : List String
deriving DecidableEq, Repr

inductive Explanation where
  | accepted (query : String) (blocks : List ExplainedBlock)
  | rejected (code reason : String)
deriving DecidableEq, Repr

namespace ExplainedBlock

def toJson (b : ExplainedBlock) : Json :=
  .object [("seq", .whole b.seq.toNat), ("inputs", .array (b.inputs.map fun n => .whole n.toNat)),
    ("output", .text b.output),
    ("row_hint", .ofOption (fun n : UInt64 => .whole n.toNat) b.rowHint),
    ("terminal", .bool b.terminal), ("operators", .array (b.operators.map Json.text))]

def heading (b : ExplainedBlock) : String :=
  s!"#{b.seq.toNat}" ++
    (if b.inputs.isEmpty then " [leaf]"
      else " inputs=[" ++ ", ".intercalate (b.inputs.map fun n => s!"#{n.toNat}") ++ "]") ++
    " output=" ++ b.output ++
    (match b.rowHint with
      | some rows => s!" rows~{rows.toNat}"
      | none => "") ++
    if b.terminal then " (terminal)" else ""

def lines (b : ExplainedBlock) : List String := b.heading :: b.operators.map ("  " ++ ·)

end ExplainedBlock

namespace Explanation

def ofPlan (p : MasterPlan) : Explanation :=
  accepted p.query.display (p.order.map fun b =>
    { seq := b.id.seq
      inputs := b.inputs.map (·.seq)
      output := b.output.display
      rowHint := b.rowHint
      terminal := b.id == p.terminal
      operators := Text.lines b.plan.display })

def ofError (e : PlannerError) : Explanation := rejected e.code e.reason

def toJson : Explanation → Json
  | accepted query blocks =>
    .object [("accepted", .bool true), ("query_id", .text query),
      ("blocks", .array (blocks.map ExplainedBlock.toJson)), ("rejection_code", .null),
      ("rejection_reason", .null)]
  | rejected code reason =>
    .object [("accepted", .bool false), ("query_id", .null), ("blocks", .array []),
      ("rejection_code", .text code), ("rejection_reason", .text reason)]

def lines : Explanation → List String
  | accepted query blocks =>
    ["=== EXPLAIN PLAN ===", "Status: ACCEPTED", "Query: " ++ query,
      s!"Blocks: {blocks.length}"] ++ blocks.flatMap ExplainedBlock.lines
  | rejected code reason =>
    ["=== EXPLAIN PLAN ===", "Status: REJECTED", "Error Code: " ++ code, "Reason: " ++ reason]

def display (e : Explanation) : String :=
  e.lines.foldl (fun text line => text ++ line ++ "\n") ""

end Explanation
end BlockQuery
