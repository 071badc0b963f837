import BlockQuery.Operator.OfPlan
import BlockQuery.Proofs.Operator.NumericKeys
import BlockQuery.Proofs.RowSource.Replay

/-!
# Replaying operators

An operator tree can be run again without being started again: a reset takes it back to its first
row, however far it was read.
-/

namespace BlockQuery.Operator

open RowSource

/-- Induct on the tree: a source replays if the sources that it is made of do. -/
theorem replays (disk : Disk) (op : Operator) : (op.source disk).Replays := by
  induction op with
  | values schema rows => exact Replays.values rows
  | seqScan scan => exact Replays.seqScan disk scan
  | indexScan scan => exact Replays.indexScan disk scan
  | filter predicate child ih => exact ih.filter predicate
  | project targets schema child ih => exact ih.project targets
  | join type condition left right hleft hright => exact hleft.join type condition _ hright
  | sort order child ih => exact ih.sort order
  | aggregate keys aggregates schema child ih => exact ih.aggregate keys aggregates

/-- Once an operator tree has started and answered some calls, each by a row or by the end, it can
be started from any state, and a reset leaves it with the rows, and the error behind them if there
is one, that it has when it is started. -/
theorem outcome_reset (disk : Disk) (op : Operator) {u s t : (op.source disk).State} {k : ℕ}
    {rows : List Row} (hinit : (op.source disk).init false u = (.ok (), s))
    (hcalls : (op.source disk).take? k s = some (rows, t)) (v : (op.source disk).State) :
    ∃ w, (op.source disk).init false v = (.ok (), w) ∧
      (op.source disk).outcome ((op.source disk).reset t) = (op.source disk).outcome w := by
  have hreplays := op.replays disk
  obtain ⟨w, hw, hsame⟩ := hreplays.init hinit v
  refine ⟨w, hw, ?_⟩
  rw [hreplays.reset hinit (answered_of_take? hcalls), hsame]

namespace SortedProduct

open IndexedNumbers.Sample (data disk fits_rows open?_disk)

/-- The pairs of the rows of a file, from the greatest left value on. -/
def plan : Plan :=
  .sort [⟨"t.f", false, false⟩] <| .join .cross none
    (.scan ⟨.table "t", [⟨"t.f", .float8⟩], none, none⟩)
    (.scan ⟨.table "t", [⟨"u.f", .float8⟩], none, none⟩) [⟨"t.f", .float8⟩, ⟨"u.f", .float8⟩]

def operator : Operator :=
  .sort ⟨[⟨0, false, false⟩], [⟨"t.f", false, false⟩]⟩ <| .join .cross none
    (.seqScan ⟨[⟨"t.f", .float8⟩], [data], none, none⟩)
    (.seqScan ⟨[⟨"u.f", .float8⟩], [data], none, none⟩)

theorem yield?_operator : (operator.source disk).yield? = some
    [[.float8 ⟨0x4340000000000000⟩, .float8 ⟨0x4340000000000000⟩],
      [.float8 ⟨0x4340000000000000⟩, .float8 ⟨0x3FF0000000000000⟩],
      [.float8 ⟨0x3FF0000000000000⟩, .float8 ⟨0x4340000000000000⟩],
      [.float8 ⟨0x3FF0000000000000⟩, .float8 ⟨0x3FF0000000000000⟩]] := by
  have hscan : ∀ column, (RowSource.seqScan disk ⟨[column], [data], none, none⟩).yield? =
      some IndexedNumbers.Sample.rows := by
    intro column
    rw [yield?_seqScan, filesRows?, filesRows?, Disk.rows?_of_open fits_rows open?_disk]
    rfl
  rw [operator, source, yield?_sort, source, yield?_join, source, source, hscan, hscan]
  cbv

end SortedProduct

open SortedProduct in
/-- Behind the third of four sorted pairs. -/
theorem outcome_reset_product :
    ofPlan ⟨[("t", IndexedNumbers.Sample.data)], [], []⟩ plan = .ok operator ∧
      ∃ s t w found,
        (operator.source IndexedNumbers.Sample.disk).init false
            (operator.source IndexedNumbers.Sample.disk).start = (.ok (), s) ∧
          (operator.source IndexedNumbers.Sample.disk).take? 3 s = some (found, t) ∧
          (operator.source IndexedNumbers.Sample.disk).outcome
              ((operator.source IndexedNumbers.Sample.disk).reset t) =
            (operator.source IndexedNumbers.Sample.disk).outcome w := by
  refine ⟨by cbv, ?_⟩
  obtain ⟨s, hinit, hrest⟩ := yield?_eq_some_iff.mp yield?_operator
  obtain ⟨t, hcalls, -⟩ := yieldsInTurn _ hrest 3 (by decide)
  obtain ⟨w, -, heq⟩ := outcome_reset IndexedNumbers.Sample.disk operator hinit hcalls
    (operator.source IndexedNumbers.Sample.disk).start
  exact ⟨s, t, w, _, hinit, hcalls, heq⟩

end BlockQuery.Operator
