import BlockQuery.Block
import BlockQuery.Plan.Document

/-!
# Blocks as documents
-/

namespace BlockQuery

open Json (Setting)

namespace BlockId

def toJson (id : BlockId) : Json :=
  .object [("query", .text id.query.hyphenated), ("seq", .whole id.seq.toNat)]

def ofJson? (v : Json) : Option BlockId := do
  match ← v.fields? ["query", "seq"] with
  | [some query, some seq] => return ⟨← query.toText?.bind QueryId.ofText?, ← seq.toUInt32?⟩
  | _ => none

end BlockId

namespace Shuffle

def toJson : Shuffle → Json
  | none => .object [("kind", .text "none")]
  | hash keys => .object [("kind", .text "hash"), ("keys", .array (keys.map Json.text))]
  | range specs =>
    .object [("kind", .text "range"), ("specs", .array (specs.map SortSpec.toJson))]
  | broadcast => .object [("kind", .text "broadcast")]

/-- Whether a record may stand for a kind without fields. -/
def isBare : Json.Record → Bool
  | .named _ => true
  | .listed items => items.isEmpty

def ofJson? (setting : Setting) (v : Json) : Option Shuffle := do
  let (kind, record) ← v.tagged? setting ["none", "hash", "range", "broadcast"]
  match kind with
  | "none" => if isBare record then some none else .none
  | "hash" =>
    match ← record.fields? ["keys"] with
    | [some keys] => return hash (← keys.toListOf? Json.toText?)
    | _ => .none
  | "range" =>
    match ← record.fields? ["specs"] with
    | [some specs] => return range (← specs.toListOf? SortSpec.ofJson?)
    | _ => .none
  | _ => if isBare record then some broadcast else .none

end Shuffle

namespace Block

def toJson (b : Block) : Json :=
  .object [("id", b.id.toJson), ("inputs", .array (b.inputs.map BlockId.toJson)),
    ("output", b.output.toJson),
    ("row_hint", .ofOption (fun n : UInt64 => .whole n.toNat) b.rowHint), ("plan", b.plan.toJson)]

def ofJson? (v : Json) : Option Block := do
  match ← v.fields? ["id", "inputs", "output", "row_hint", "plan"] with
  | [some id, some inputs, some output, rowHint, some plan] =>
    return ⟨← BlockId.ofJson? id, ← inputs.toListOf? BlockId.ofJson?,
      ← Shuffle.ofJson? .alone output, ← Json.toOption? Json.toUInt64? rowHint,
      ← Plan.ofJson? .alone plan⟩
  | _ => none

end Block
end BlockQuery
