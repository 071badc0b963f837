import BlockQuery.Proofs.Index.Building
import BlockQuery.Proofs.Operator.IndexChoice
import BlockQuery.Proofs.Plan.Relation
import BlockQuery.Proofs.RowFile.Located

/-!
# Index scans and the rows of their file

Checked again by the predicate, the rows of a chosen index scan are those that a
scan of the whole file keeps, in the order of the index.  Only where the bounds
of the look-up are taken to be inverted the index scan finds none.
-/

namespace BlockQuery

open Record (located keyAt)

theorem BoundExpr.eval_of_passes {b : BoundExpr} {row : Row}
    (h : RowSource.passes b.keeps row = true) : b.eval row = .ok (.bool true) := by
  rw [RowSource.passes, beq_iff_eq] at h
  cases hkeeps : b.keeps row with
  | error e =>
    rw [hkeeps] at h
    cases h
  | ok kept =>
    rw [hkeeps] at h
    cases h
    obtain ⟨d, heval, hd⟩ := Except.bind_eq_ok.mp hkeeps
    rw [heval]
    cases d <;> cases hd
    rfl

/-! ## Indexes of a file -/

/-- Whether an index lists the rows of a file with their places, by a column of theirs. -/
structure IndexBinding.Covers (b : IndexBinding) (rows : List Row) (position : ℕ)
    (listed : List (Row × ℕ)) : Prop where
  perm : listed.Perm (located rows)
  lists : b.reader.Lists (listed.map (keyAt position))
  ascending : Index.Ascending b.reader.order (listed.map (keyAt position))
  keys : b.reader.order.keys = [⟨0, b.ascending, false⟩]
  width : b.reader.header.schema.length = 1

/-- Whether the rows have a column whose values are null or of a type. -/
def Row.HaveColumn (position : ℕ) (type : DataType) (rows : List Row) : Prop :=
  ∀ row ∈ rows, ∃ d, row[position]? = some d ∧ (d = .null ∨ d.type? = some type)

theorem Row.select_singleton {row : Row} {position : ℕ} {d : Datum} (h : row[position]? = some d) :
    row.select [position] = [d] := by
  rw [select, List.map_singleton, h]
  rfl

theorem IndexBinding.Covers.ofType {b : IndexBinding} {rows : List Row} {position : ℕ}
    {listed : List (Row × ℕ)} {type : DataType} (h : b.Covers rows position listed)
    (hcolumn : Row.HaveColumn position type rows) : OfType type (listed.map (keyAt position)) := by
  intro e he
  obtain ⟨x, hx, rfl⟩ := List.mem_map.mp he
  obtain ⟨d, hd, htype⟩ := hcolumn x.1 (Record.mem_of_mem_located (h.perm.mem_iff.mp hx))
  exact ⟨d, Row.select_singleton hd, htype⟩

/-- Whether the tests of a column by a predicate all read the value at a position, and have keys
that fit its type. -/
def KeyTest.ReadAt (schema : Schema) (p : Expr) (column : String) (position : ℕ)
    (type : DataType) : Prop :=
  ∀ e ∈ p.conjuncts, ∀ t, ofExpr? schema e = some t → t.column = column →
    t.value.isKeyFor type = true ∧
      ∃ name, e.columnComparison? = some (name, t.op, t.value) ∧ schema.find name = .ok position

namespace IndexChoice

theorem ofPredicate?_eq_some {ctx : TaskContext} {table : String} {schema : Schema} {p : Expr}
    {c : IndexChoice} (h : ofPredicate? ctx table schema p = some c) :
    c.binding ∈ ctx.indexesOn table ∧
      c.binding.lookup? (KeyTest.ofPredicate schema p) = some c.lookup := by
  obtain ⟨b, hb, hc⟩ := List.mem_filterMap.mp (mem_of_best? h)
  obtain ⟨l, hl, rfl⟩ := Option.map_eq_some_iff.mp hc
  exact ⟨hb, hl⟩

section Scan

variable {schema : Schema} {p : Expr} {c : IndexChoice} {rows : List Row} {position : ℕ}
  {type : DataType} {listed : List (Row × ℕ)} {row : Row}

/-- Whether the bounds of a choice are taken to be inverted in the order of its index. -/
def inverted (c : IndexChoice) : Bool := c.lookup.inverted c.binding.reader.order

variable (hlookup : c.binding.lookup? (KeyTest.ofPredicate schema p) = some c.lookup)
  (hread : KeyTest.ReadAt schema p c.binding.column position type)
include hlookup hread

/-- The keys of the look-up fit the type of the column. -/
theorem isKeyFor_of_key {key : Row}
    (hkey : c.lookup.lower.key? = some key ∨ c.lookup.upper.key? = some key) :
    ∃ v : Datum, key = [v] ∧ v.isKeyFor type = true := by
  obtain ⟨t, ht, rfl⟩ := KeyTest.exists_test_of_key hlookup hkey
  obtain ⟨hmem, hcolumn⟩ := List.mem_filter.mp ht
  obtain ⟨e, he, htest⟩ := List.mem_filterMap.mp hmem
  exact ⟨t.value, rfl, (hread e he t htest (eq_of_beq hcolumn)).1⟩

/-- A row of which the predicate is true is admitted by the look-up. -/
theorem admits_of_isTrue {order : RowOrder}
    (hkeys : order.keys = [⟨0, c.binding.ascending, false⟩]) (htrue : p.IsTrue schema row) :
    c.lookup.admits order (row.select [position]) = true := by
  have hpass : ∀ t ∈ (KeyTest.ofPredicate schema p).filter (·.column == c.binding.column),
      ∃ d, row[position]? = some d ∧ t.Passes d := by
    intro t ht
    obtain ⟨hmem, hcolumn⟩ := List.mem_filter.mp ht
    obtain ⟨e, he, htest⟩ := List.mem_filterMap.mp hmem
    obtain ⟨-, name, hcomparison, hfind⟩ := hread e he t htest (eq_of_beq hcolumn)
    obtain ⟨d, hd, hvalue, hkey, hholds⟩ :=
      Expr.holds_of_isTrue hcomparison hfind (Expr.isTrue_conjuncts htrue e he)
    exact ⟨d, hd, hvalue, hkey, hholds⟩
  cases hvalue : row[position]? with
  | none =>
    obtain ⟨t, ht⟩ := List.exists_mem_of_ne_nil _ (KeyTest.ne_nil_of_lookup? hlookup)
    obtain ⟨d, hd, -⟩ := hpass t ht
    rw [hvalue] at hd
    cases hd
  | some d =>
    rw [Row.select_singleton hvalue]
    apply KeyTest.admits_of_passes hkeys hlookup
    intro t ht
    obtain ⟨d', hd', hpasses⟩ := hpass t ht
    rw [hvalue] at hd'
    cases hd'
    exact hpasses

/-- The offsets that the look-up finds. -/
theorem find_scan (hcovers : c.binding.Covers rows position listed)
    (hcolumn : Row.HaveColumn position type rows) :
    (c.scan schema).find = .ok (if c.inverted then [] else
      (listed.filter fun x => c.lookup.admits c.binding.reader.order
        (x.1.select [position])).map Prod.snd) := by
  have hkey : ∀ key, c.lookup.lower.key? = some key ∨ c.lookup.upper.key? = some key →
      key.length = c.binding.reader.header.schema.length ∧
        Index.Searchable c.binding.reader.order (listed.map (keyAt position)) key := by
    intro key hkey
    obtain ⟨v, rfl, hv⟩ := isKeyFor_of_key hlookup hread hkey
    refine ⟨hcovers.width.symm, ?_⟩
    exact searchable_of_isKeyFor hcovers.keys (hcovers.ofType hcolumn) hv
  rw [IndexScan.find_eq]
  have hscan := Index.scan_eq_filter_of_searchable hcovers.lists rfl hcovers.ascending
    (fun key h => (hkey key (Or.inl h)).1) (fun key h => (hkey key (Or.inr h)).1)
    (fun key h => (hkey key (Or.inl h)).2) (fun key h => (hkey key (Or.inr h)).2)
  refine hscan.trans ?_
  rw [List.filter_map, List.map_map]
  rfl

/-- The rows that the index scan yields. -/
theorem yield?_scan {disk : Disk} (hcovers : c.binding.Covers rows position listed)
    (hcolumn : Row.HaveColumn position type rows) (hfits : ∀ row ∈ rows, row.Fits)
    (hmax : (rows.flatMap Record.encode).length ≤ RowReader.maxPosition)
    (hopen : RowReader.open? disk c.binding.data.path =
      .ok (.ofContent c.binding.data.path (rows.flatMap Record.encode))) :
    (RowSource.indexScan disk (c.scan schema)).yield? = some (if c.inverted then [] else
      (listed.filter fun x => c.lookup.admits c.binding.reader.order
        (x.1.select [position])).map Prod.fst) := by
  have hreader : disk.reader? c.binding.data.path =
      some (.ofContent c.binding.data.path (rows.flatMap Record.encode)) := by
    rw [Disk.reader?, hopen]
    rfl
  rw [RowSource.yield?_indexScan, find_scan hlookup hread hcovers hcolumn]
  change (disk.reader? c.binding.data.path).bind _ = _
  rw [hreader, Option.bind_some]
  split
  next => rfl
  next =>
    apply RowSource.rowsAt?_of_located hfits hmax _ (RowReader.reads_standing _ _ 0)
    intro x hx
    exact hcovers.perm.mem_iff.mp (List.mem_of_mem_filter hx)

/-- Checked again, the rows of the index scan are those that the whole file has, unless the bounds
are taken to be inverted. -/
theorem kept_of_scan {disk : Disk} {b : BoundExpr} {kept : List Row}
    (hcovers : c.binding.Covers rows position listed)
    (hcolumn : Row.HaveColumn position type rows) (hfits : ∀ row ∈ rows, row.Fits)
    (hmax : (rows.flatMap Record.encode).length ≤ RowReader.maxPosition)
    (hopen : RowReader.open? disk c.binding.data.path =
      .ok (.ofContent c.binding.data.path (rows.flatMap Record.encode)))
    (hbind : p.bind schema = .ok b) (hkept : RowSource.keep b.keeps rows = some kept) :
    ∃ found, ((RowSource.indexScan disk (c.scan schema)).filter b).yield? = some found ∧
      (c.inverted = true → found = []) ∧ (c.inverted = false → found.Perm kept) := by
  obtain ⟨hall, rfl⟩ := RowSource.keep_eq_some hkept
  rw [RowSource.yield?_filter, yield?_scan hlookup hread hcovers hcolumn hfits hmax hopen]
  cases hinverted : c.inverted with
  | true => exact ⟨[], rfl, fun _ => rfl, fun h => absurd h.symm Bool.false_ne_true⟩
  | false =>
    obtain ⟨found, hfound⟩ : ∃ found, found = listed.filter fun x =>
        c.lookup.admits c.binding.reader.order (x.1.select [position]) := ⟨_, rfl⟩
    have hmem : ∀ row ∈ found.map Prod.fst, row ∈ rows := by
      intro row hrow
      obtain ⟨x, hx, rfl⟩ := List.mem_map.mp hrow
      rw [hfound] at hx
      exact Record.mem_of_mem_located (hcovers.perm.mem_iff.mp (List.mem_of_mem_filter hx))
    have hkeep := RowSource.keep_of_forall fun row hrow => hall row (hmem row hrow)
    rw [if_neg Bool.false_ne_true, ← hfound]
    refine ⟨_, hkeep, fun h => absurd h Bool.false_ne_true, fun _ => ?_⟩
    have hrows : found.map Prod.fst =
        (listed.map Prod.fst).filter fun row =>
          c.lookup.admits c.binding.reader.order (row.select [position]) := by
      rw [hfound, List.filter_map]
      rfl
    have hlisted : (listed.map Prod.fst).Perm rows := by
      have hperm := hcovers.perm.map Prod.fst
      rwa [Record.map_fst_located] at hperm
    rw [hrows, List.filter_filter]
    have hsame : ∀ row, (RowSource.passes b.keeps row &&
        c.lookup.admits c.binding.reader.order (row.select [position])) =
          RowSource.passes b.keeps row := by
      intro row
      cases hpasses : RowSource.passes b.keeps row with
      | false => rfl
      | true =>
        have htrue : p.IsTrue schema row := ⟨b, hbind, BoundExpr.eval_of_passes hpasses⟩
        exact admits_of_isTrue hlookup hread hcovers.keys htrue
    simp only [hsame]
    exact hlisted.filter _

end Scan

end IndexChoice

end BlockQuery
