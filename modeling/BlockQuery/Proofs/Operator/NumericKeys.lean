import BlockQuery.Proofs.Operator.ColumnIndex
import BlockQuery.Proofs.RowFile.Append

/-!
# Comparisons of an indexed column with numbers

A predicate that compares one numeric column with numbers never fails on rows of
the column.  The index that is chosen for it finds the rows that a scan of the
file keeps, except where its bounds are taken to be inverted: integers are told
apart there which are the same double, so that a double between them is lost.
-/

namespace BlockQuery

open Record (located keyAt)

/-! ## Predicates -/

namespace Expr

/-- Whether all conjuncts compare the column at a position with numbers. -/
def ComparesNumbers (schema : Schema) (position : ℕ) (p : Expr) : Prop :=
  ∀ e ∈ p.conjuncts, ∃ name op v, e.columnComparison? = some (name, op, v) ∧
    schema.find name = .ok position ∧ v.isNumeric = true

end Expr

/-- The value of an outcome of three-valued logic. -/
def Datum.ofTruth (k : Option Bool) : Datum := (k.map Datum.bool).getD .null

namespace BoundExpr

/-- Whether an expression is true, false or unknown on a row. -/
def HasTruth (row : Row) (b : BoundExpr) : Prop := ∃ k, b.eval row = .ok (.ofTruth k)

theorem keeps_of_hasTruth {row : Row} {b : BoundExpr} (h : b.HasTruth row) :
    ∃ kept, b.keeps row = .ok kept := by
  obtain ⟨k, heval⟩ := h
  rw [keeps, heval]
  rcases k with _ | k
  · exact ⟨false, rfl⟩
  · exact ⟨k, rfl⟩

theorem HasTruth.and {row : Row} {l r : BoundExpr} (hl : l.HasTruth row) (hr : r.HasTruth row) :
    (binary (.connective .and) l r).HasTruth row := by
  obtain ⟨kl, hl⟩ := hl
  obtain ⟨kr, hr⟩ := hr
  rw [HasTruth, eval, hl]
  -- A false left operand decides; otherwise both operands are looked at.
  rcases kl with _ | _ | _
  · rw [hr]
    rcases kr with _ | _ | _
    · exact ⟨none, rfl⟩
    · exact ⟨some false, rfl⟩
    · exact ⟨none, rfl⟩
  · exact ⟨some false, rfl⟩
  · rw [hr]
    rcases kr with _ | _ | _
    · exact ⟨none, rfl⟩
    · exact ⟨some false, rfl⟩
    · exact ⟨some true, rfl⟩

end BoundExpr

theorem Comparison.eval_numbers (op : Comparison) {x y : Datum}
    (hx : x = .null ∨ x.isNumeric = true) (hy : y = .null ∨ y.isNumeric = true) :
    ∃ k, op.eval x y = .ok (.ofTruth k) := by
  rcases hx with rfl | hx
  · exact ⟨none, rfl⟩
  · rcases hy with rfl | hy
    · rw [eval, Datum.isNull.eq_def .null, Bool.or_true]
      exact ⟨none, rfl⟩
    · have hnull : (x.isNull || y.isNull) = false := by
        cases x <;> cases hx <;> cases y <;> cases hy <;> rfl
      have hcomparable : x.comparable y = true := by
        cases x <;> cases hx <;> cases y <;> cases hy <;> rfl
      rw [eval, hnull, hcomparable]
      exact ⟨some (op.holds (x.totalCompare y)), rfl⟩

namespace Expr

variable {schema : Schema} {position : ℕ}

/-- Whether a row has a number or null at a position. -/
def NumberAt (position : ℕ) (row : Row) : Prop :=
  ∃ d : Datum, row[position]? = some d ∧ (d = .null ∨ d.isNumeric = true)

/-- A comparison of the column with a number is bound, and has a truth value on all rows. -/
theorem exists_bind_of_comparison {e : Expr} {name : String} {op : Comparison} {v : Datum}
    (h : e.columnComparison? = some (name, op, v)) (hfind : schema.find name = .ok position)
    (hv : v.isNumeric = true) :
    ∃ b, e.bind schema = .ok b ∧ ∀ row, NumberAt position row → b.HasTruth row := by
  have hliteral : (literal v).bind schema = .ok (.literal v) := rfl
  have hcolumn : ∀ {row : Row} {d : Datum}, row[position]? = some d →
      (BoundExpr.column position name).eval row = .ok d := by
    intro row d hd
    rw [BoundExpr.eval, hd]
  rcases columnComparison?_eq_some h with rfl | rfl
  · refine ⟨_, bind_binary (bind_column hfind) hliteral, ?_⟩
    rintro row ⟨d, hd, hnumber⟩
    obtain ⟨k, heval⟩ := Comparison.eval_numbers op hnumber (Or.inr hv)
    refine ⟨k, ?_⟩
    rw [← heval, BoundExpr.eval, hcolumn hd]
    rfl
  · refine ⟨_, bind_binary hliteral (bind_column hfind), ?_⟩
    rintro row ⟨d, hd, hnumber⟩
    obtain ⟨k, heval⟩ := Comparison.eval_numbers op.flipped (Or.inr hv) hnumber
    refine ⟨k, ?_⟩
    rw [← heval, BoundExpr.eval, hcolumn hd]
    rfl

theorem ComparesNumbers.exists_bind {p : Expr} (h : p.ComparesNumbers schema position) :
    ∃ b, p.bind schema = .ok b ∧ ∀ row, NumberAt position row → b.HasTruth row := by
  unfold ComparesNumbers at h
  fun_induction conjuncts p with
  | case1 l r ihl ihr =>
    obtain ⟨hl, hr⟩ := List.forall_mem_append.mp h
    obtain ⟨lb, hlb, hlTruth⟩ := ihl hl
    obtain ⟨rb, hrb, hrTruth⟩ := ihr hr
    refine ⟨_, bind_binary hlb hrb, ?_⟩
    intro row hrow
    exact (hlTruth row hrow).and (hrTruth row hrow)
  | case2 p _ =>
    obtain ⟨name, op, v, hcomparison, hfind, hv⟩ := h p (List.mem_singleton_self p)
    exact exists_bind_of_comparison hcomparison hfind hv

end Expr

/-! ## The chosen index -/

/-- Whether a table is one file with the given rows, and the column at a position has numbers and
only indexes that were built from it. -/
structure IndexedNumbers (ctx : TaskContext) (disk : Disk) (table : String) (schema : Schema)
    (position : ℕ) (data : Fragment) (rows : List Row) (column : Column) : Prop where
  files : ctx.filesOf table = [data]
  opens : RowReader.open? disk data.path =
    .ok (.ofContent data.path (rows.flatMap Record.encode))
  fits : ∀ row ∈ rows, row.Fits
  size : (rows.flatMap Record.encode).length ≤ 2 ^ 62
  wide : ∀ row ∈ rows, row.length = schema.length
  typed : schema[position]? = some column
  numeric : column.type.isNumeric = true
  values : Row.HaveColumn position column.type rows
  indexes : ∀ b ∈ ctx.indexesOn table, b.column = column.simple →
    b.BuiltFrom rows position column.type

namespace IndexedNumbers

variable {ctx : TaskContext} {disk : Disk} {table : String} {schema : Schema} {position : ℕ}
  {data : Fragment} {rows : List Row} {column : Column} {p : Expr} {c : IndexChoice}

theorem numberAt (h : IndexedNumbers ctx disk table schema position data rows column) :
    ∀ row ∈ rows, Expr.NumberAt position row := by
  intro row hrow
  obtain ⟨d, hd, htype⟩ := h.values row hrow
  refine ⟨d, hd, htype.imp_right fun htype => ?_⟩
  have hnumeric := h.numeric
  generalize column.type = type at htype hnumeric
  cases d <;> cases htype <;> exact hnumeric

theorem readAt (h : IndexedNumbers ctx disk table schema position data rows column)
    (hp : p.ComparesNumbers schema position) (name : String) :
    KeyTest.ReadAt schema p name position column.type := by
  intro e he t ht _
  obtain ⟨name, op, v, hcomparison, hfind, -⟩ := hp e he
  obtain ⟨name', i, column', htest, hfind', hget, -, hkey⟩ := KeyTest.ofExpr?_eq_some ht
  cases hcomparison.symm.trans htest
  cases hfind.symm.trans hfind'
  cases h.typed.symm.trans hget
  exact ⟨hkey, name, htest, hfind⟩

/-- The index that is chosen is one of the column. -/
theorem binding_column (h : IndexedNumbers ctx disk table schema position data rows column)
    (hp : p.ComparesNumbers schema position)
    (hchoice : IndexChoice.ofPredicate? ctx table schema p = some c) :
    c.binding.column = column.simple := by
  obtain ⟨-, hlookup⟩ := IndexChoice.ofPredicate?_eq_some hchoice
  obtain ⟨t, ht⟩ := List.exists_mem_of_ne_nil _ (KeyTest.ne_nil_of_lookup? hlookup)
  obtain ⟨hmem, hcolumn⟩ := List.mem_filter.mp ht
  obtain ⟨e, he, ht⟩ := List.mem_filterMap.mp hmem
  obtain ⟨name, op, v, hcomparison, hfind, -⟩ := hp e he
  obtain ⟨name', i, column', htest, hfind', hget, hsimple, -⟩ := KeyTest.ofExpr?_eq_some ht
  cases hcomparison.symm.trans htest
  cases hfind.symm.trans hfind'
  cases h.typed.symm.trans hget
  exact (eq_of_beq hcolumn).symm.trans hsimple.symm

/-- What the two ways to find the rows of the predicate come to. -/
theorem found_of_choice (h : IndexedNumbers ctx disk table schema position data rows column)
    (hp : p.ComparesNumbers schema position)
    (hchoice : IndexChoice.ofPredicate? ctx table schema p = some c) :
    ∃ b found, p.bind schema = .ok b ∧
      ((RowSource.indexScan disk (c.scan schema)).filter b).yield? = some found ∧
      RowSource.keep b.keeps rows = some (rows.filter (RowSource.passes b.keeps)) ∧
      (c.inverted = true → found = []) ∧
      (c.inverted = false → found.Perm (rows.filter (RowSource.passes b.keeps))) := by
  obtain ⟨hmem, hlookup⟩ := IndexChoice.ofPredicate?_eq_some hchoice
  have hcolumn := h.binding_column hp hchoice
  have hdata : c.binding.data = data := by
    have hin := TaskContext.mem_filesOf_of_mem_indexesOn hmem
    rw [h.files] at hin
    exact List.mem_singleton.mp hin
  obtain ⟨listed, hcovers⟩ :=
    (h.indexes c.binding hmem hcolumn).covers h.values h.fits h.size
  obtain ⟨b, hbind, htruth⟩ := hp.exists_bind
  have hkeep := RowSource.keep_of_forall fun row hrow =>
    BoundExpr.keeps_of_hasTruth (htruth row (h.numberAt row hrow))
  have hmax : (rows.flatMap Record.encode).length ≤ RowReader.maxPosition :=
    h.size.trans (by decide)
  obtain ⟨found, hfound, hinverted, hperm⟩ := IndexChoice.kept_of_scan hlookup (h.readAt hp _)
    hcovers h.values h.fits hmax (by rw [hdata]; exact h.opens) hbind hkeep
  exact ⟨b, found, hbind, hfound, hkeep, hinverted, hperm⟩

theorem yield?_seqScan (h : IndexedNumbers ctx disk table schema position data rows column)
    {b : BoundExpr} {kept : List Row} (hkeep : RowSource.keep b.keeps rows = some kept) :
    (RowSource.seqScan disk ⟨schema, [data], some b, none⟩).yield? = some kept := by
  have hrows := Disk.rows?_of_open h.fits h.opens
  rw [RowSource.yield?_seqScan, RowSource.filesRows?, RowSource.filesRows?, hrows]
  rw [Option.bind_some, Option.map_some, Option.bind_some, List.append_nil,
    Operator.delivered_withCondition, if_pos (show Relation.Wide ⟨schema, rows⟩ from h.wide), hkeep]

theorem bound_eq {b : BoundExpr} (hbind : p.bind schema = .ok b) (op : Operator)
    (hschema : op.schema = schema) : op.bound p = .ok b := by
  rw [Operator.bound, hschema, hbind]
  rfl

/-- The rows that the chosen index finds are those that a scan of the file keeps just if the bounds
of the look-up are not taken to be inverted, or no row is kept. -/
theorem perm_iff_not_inverted
    (h : IndexedNumbers ctx disk table schema position data rows column)
    (hp : p.ComparesNumbers schema position)
    (hchoice : IndexChoice.ofPredicate? ctx table schema p = some c) :
    ∃ lookup scan found kept,
      Operator.scanOfTable ctx table schema (some p) = .ok lookup ∧
        Operator.scanOfFiles schema (ctx.filesOf table) (some p) = .ok scan ∧
        ((lookup.source disk).rows false).1 = .ok found ∧
        ((scan.source disk).rows false).1 = .ok kept ∧
        (found.Perm kept ↔ c.inverted = false ∨ kept = []) := by
  obtain ⟨b, found, hbind, hfound, hkeep, hinverted, hperm⟩ := h.found_of_choice hp hchoice
  refine ⟨.filter b (.indexScan (c.scan schema)), .seqScan ⟨schema, [data], some b, none⟩, found,
    rows.filter (RowSource.passes b.keeps), ?_, ?_, RowSource.rows_ok_iff.mpr hfound,
    RowSource.rows_ok_iff.mpr (h.yield?_seqScan hkeep), ?_⟩
  · rw [Operator.scanOfTable_eq, Option.bind_some, hchoice]
    exact congrArg (Except.map _) (bound_eq hbind (.indexScan (c.scan schema)) rfl)
  · rw [h.files, Operator.scanOfFiles, SeqScan.withCondition, SeqScan.ofFragments, hbind]
    rfl
  · cases hc : c.inverted with
    | true =>
      rw [hinverted hc]
      constructor
      · intro hnil
        exact Or.inr hnil.nil_eq.symm
      · rintro (hfalse | hnil)
        · cases hfalse
        · rw [hnil]
    | false => exact ⟨fun _ => Or.inl rfl, fun _ => hperm hc⟩

end IndexedNumbers

/-! ## Integers between which no double lies -/

namespace IndexedNumbers.Sample

/-- The doubles next to which integers are rounded, and one far from them. -/
def rows : List Row := [[.float8 ⟨0x4340000000000000⟩], [.float8 ⟨0x3FF0000000000000⟩]]

def data : Fragment := ⟨"t", "t.rows"⟩

/-- A disk with one file. -/
def diskOf (content : Bytes) : Disk := ⟨[([".", "t.rows"], .file 0 content)], 1⟩

def disk : Disk := diskOf (rows.flatMap Record.encode)

def schema : Schema := [⟨"t.f", .float8⟩]

/-- The context with an index on the column. -/
def context (index : Index.Reader) : TaskContext := ⟨[("t", data)], [], [⟨"t", "f", data, index⟩]⟩

/-- The column is at least 2^53 + 1, which is rounded to 2^53. -/
def above : Expr := .compare .gtEq (.column "f") (.literal (.int8 9007199254740993))

/-- The column is at most 2^53. -/
def below : Expr := .compare .ltEq (.column "f") (.literal (.int8 9007199254740992))

def between : Expr := .and above below

/-- The bounds of the column in terms of the rows. -/
def condition : BoundExpr :=
  .binary (.connective .and)
    (.binary (.comparison .gtEq) (.column 0 "f") (.literal (.int8 9007199254740993)))
    (.binary (.comparison .ltEq) (.column 0 "f") (.literal (.int8 9007199254740992)))

theorem fits_rows : ∀ row ∈ rows, row.Fits := by
  intro row hrow
  rcases List.mem_cons.mp hrow with rfl | hrow
  · exact ⟨by decide, by decide⟩
  · obtain rfl := List.mem_singleton.mp hrow
    exact ⟨by decide, by decide⟩

theorem open?_disk :
    RowReader.open? disk data.path = .ok (.ofContent data.path (rows.flatMap Record.encode)) :=
  RowReader.open?_of_file (Disk.resolve_alone RowAppender.isAlone_rows) rfl

theorem haveColumn : Row.HaveColumn 0 .float8 rows := by
  intro row hrow
  rcases List.mem_cons.mp hrow with rfl | hrow
  · exact ⟨_, rfl, Or.inr rfl⟩
  · obtain rfl := List.mem_singleton.mp hrow
    exact ⟨_, rfl, Or.inr rfl⟩

/-- The table has an index on its column that ascends. -/
theorem exists_index : ∃ index,
    IndexedNumbers (context index) disk "t" schema 0 data rows ⟨"t.f", .float8⟩ ∧
      IndexBinding.ascending ⟨"t", "f", data, index⟩ = true := by
  have hname : (Bytes.ofText "f").length ≤ Index.maxNameLength := by decide
  have halone : Path.IsAlone "t.idx" :=
    ⟨⟨by decide, by decide, by decide, by decide⟩, by decide, by decide, by decide⟩
  have hfile : ∀ content, (diskOf content).create "t.idx" = .ok (⟨[".", "t.idx"], 1⟩,
      ⟨(diskOf content).entries ++ [([".", "t.idx"], .file 1 [])], 2⟩) := by
    intro content
    rw [Disk.create_alone halone]
    rfl
  have hsize : (rows.flatMap Record.encode).length ≤ 2 ^ 62 := by decide
  obtain ⟨index, hbuilt, hascending⟩ := IndexBinding.exists_builtFrom open?_disk haveColumn fits_rows
    hsize hname (hfile _) "t" true
  have hfiles : (context index).filesOf "t" = [data] := by cbv
  refine ⟨index, ⟨hfiles, open?_disk, fits_rows, hsize, by decide, rfl, rfl, haveColumn, ?_⟩,
    hascending⟩
  intro b hb _
  have hindexes : (context index).indexesOn "t" = [⟨"t", "f", data, index⟩] := by cbv
  rw [hindexes] at hb
  rw [List.mem_singleton.mp hb]
  exact hbuilt

theorem comparesNumbers_above : above.ComparesNumbers schema 0 := by
  have hcomparison : above.columnComparison? = some ("f", .gtEq, .int8 9007199254740993) := by cbv
  have hfind : schema.find "f" = .ok 0 := by cbv
  intro e he
  rw [List.mem_singleton.mp he]
  exact ⟨_, _, _, hcomparison, hfind, rfl⟩

theorem comparesNumbers_between : between.ComparesNumbers schema 0 := by
  have hcomparison : below.columnComparison? = some ("f", .ltEq, .int8 9007199254740992) := by cbv
  have hfind : schema.find "f" = .ok 0 := by cbv
  intro e he
  rcases List.mem_cons.mp he with rfl | he
  · exact comparesNumbers_above above List.mem_cons_self
  · rw [List.mem_singleton.mp he]
    exact ⟨_, _, _, hcomparison, hfind, rfl⟩

variable {index : Index.Reader} {p : Expr} {l : IndexLookup}

/-- The only index is chosen if it offers a look-up. -/
theorem ofPredicate?_context (hascending : IndexBinding.ascending ⟨"t", "f", data, index⟩ = true)
    (hlookup : KeyTest.lookup? true ((KeyTest.ofPredicate schema p).filter (·.column == "f")) =
      some l) :
    IndexChoice.ofPredicate? (context index) "t" schema p =
      some ⟨⟨"t", "f", data, index⟩, l⟩ := by
  have hindexes : (context index).indexesOn "t" = [⟨"t", "f", data, index⟩] := by cbv
  have hoffers : IndexBinding.lookup? ⟨"t", "f", data, index⟩ (KeyTest.ofPredicate schema p) =
      some l := by
    rw [IndexBinding.lookup?, hascending]
    exact hlookup
  rw [IndexChoice.ofPredicate?, hindexes, List.filterMap_cons, hoffers]
  rfl

end IndexedNumbers.Sample

open IndexedNumbers.Sample in
/-- One integer that is rounded is no obstacle: the index finds the double next to it. -/
theorem IndexedNumbers.perm_above :
    ∃ index c, IndexChoice.ofPredicate? (context index) "t" schema above = some c ∧
      ∃ lookup scan found kept,
        Operator.scanOfTable (context index) "t" schema (some above) = .ok lookup ∧
          Operator.scanOfFiles schema ((context index).filesOf "t") (some above) = .ok scan ∧
          ((lookup.source disk).rows false).1 = .ok found ∧
          ((scan.source disk).rows false).1 = .ok kept ∧ found.Perm kept := by
  obtain ⟨index, hindex, hascending⟩ := exists_index
  have hchoice := ofPredicate?_context (p := above)
    (l := .range (.included [.int8 9007199254740993]) .unbounded) hascending (by cbv)
  obtain ⟨lookup, scan, found, kept, hlookup, hscan, hfound, hkept, hiff⟩ :=
    hindex.perm_iff_not_inverted comparesNumbers_above hchoice
  exact ⟨index, _, hchoice, lookup, scan, found, kept, hlookup, hscan, hfound, hkept,
    hiff.mpr (Or.inl rfl)⟩

open IndexedNumbers.Sample in
/-- Between two integers that are rounded to the same double this double is kept by a scan of the
file, but not found by the index. -/
theorem IndexedNumbers.not_perm_between :
    ∃ index c, IndexedNumbers (context index) disk "t" schema 0 data rows ⟨"t.f", .float8⟩ ∧
      between.ComparesNumbers schema 0 ∧
      IndexChoice.ofPredicate? (context index) "t" schema between = some c ∧
      ∃ lookup scan,
        Operator.scanOfTable (context index) "t" schema (some between) = .ok lookup ∧
          Operator.scanOfFiles schema ((context index).filesOf "t") (some between) = .ok scan ∧
          ((lookup.source disk).rows false).1 = .ok [] ∧
          ((scan.source disk).rows false).1 = .ok [[.float8 ⟨0x4340000000000000⟩]] ∧
          ¬([] : List Row).Perm [[.float8 ⟨0x4340000000000000⟩]] := by
  obtain ⟨index, hindex, hascending⟩ := exists_index
  have hchoice := ofPredicate?_context (p := between) (l := .range
    (.included [.int8 9007199254740993]) (.included [.int8 9007199254740992])) hascending (by cbv)
  obtain ⟨b, found, hbind, hfound, hkeep, hinverted, -⟩ :=
    hindex.found_of_choice comparesNumbers_between hchoice
  have hinverts : IndexChoice.inverted ⟨⟨"t", "f", data, index⟩, .range
      (.included [.int8 9007199254740993]) (.included [.int8 9007199254740992])⟩ = true := by
    have hmem := (IndexChoice.ofPredicate?_eq_some hchoice).1
    obtain ⟨listed, hcovers⟩ := (hindex.indexes _ hmem rfl).covers haveColumn fits_rows hindex.size
    have hkeys := hcovers.keys
    rw [hascending] at hkeys
    have hcompare := KeyTest.compare_singleton (d := .int8 9007199254740993)
      (v := .int8 9007199254740992) hkeys (by decide) (by decide)
    rw [IndexChoice.inverted, IndexLookup.inverted, IndexLookup.lower, IndexLookup.upper,
      Index.Bound.inverted, hcompare]
    rfl
  have hbound : between.bind schema = .ok condition := by cbv
  obtain rfl : b = condition := Except.ok.inj (hbind.symm.trans hbound)
  have hkept : RowSource.keep condition.keeps rows = some [[.float8 ⟨0x4340000000000000⟩]] := by
    decide +kernel
  rw [hinverted hinverts] at hfound
  refine ⟨index, _, hindex, comparesNumbers_between, hchoice, .filter condition (.indexScan _),
    .seqScan ⟨schema, [data], some condition, none⟩, ?_, ?_,
    RowSource.rows_ok_iff.mpr hfound, RowSource.rows_ok_iff.mpr (hindex.yield?_seqScan hkept), ?_⟩
  · rw [Operator.scanOfTable_eq, Option.bind_some, hchoice]
    exact congrArg (Except.map _) (bound_eq hbound (.indexScan _) rfl)
  · rw [hindex.files, Operator.scanOfFiles, SeqScan.withCondition, SeqScan.ofFragments, hbound]
    rfl
  · exact fun hperm => List.cons_ne_nil _ _ hperm.nil_eq.symm

end BlockQuery
