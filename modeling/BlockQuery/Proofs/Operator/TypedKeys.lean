import BlockQuery.Proofs.Operator.ColumnIndex

/-!
# Indexes whose keys are no doubles

Values that are no doubles have one order, in which they are compared with each
other and with the keys of a look-up.  Nothing lies between bounds that are
inverted in it.  So the index that is chosen for such keys finds all rows that a
scan of the file keeps.
-/

namespace BlockQuery

theorem Datum.comparesAs_of_isKeyFor {type : DataType} {v : Datum} (hkey : v.isKeyFor type = true)
    (htype : type ≠ .float8) (hv : v.type? ≠ some .float8) : v.ComparesAs type := by
  cases type <;> cases v <;>
    first | rfl | exact absurd rfl htype | exact absurd rfl hv | cases hkey

/-- Whether no conjunct that compares one of some columns with a literal involves a double. -/
def Expr.AvoidsDoubles (schema : Schema) (columns : ℕ → Prop) (p : Expr) : Prop :=
  ∀ e ∈ p.conjuncts, ∀ name op v i c, e.columnComparison? = some (name, op, v) →
    schema.find name = .ok i → schema[i]? = some c → columns i →
      c.type ≠ .float8 ∧ v.type? ≠ some .float8

namespace IndexChoice

section Choice

variable {schema : Schema} {p : Expr} {c : IndexChoice}

/-- The tests of a chosen index all read the first column that has the simple name of its key. -/
theorem exists_readAt (hfirst : schema.FindsFirst)
    (hlookup : c.binding.lookup? (KeyTest.ofPredicate schema p) = some c.lookup) :
    ∃ position column, schema.findIdx? (·.simple == c.binding.column) = some position ∧
      schema[position]? = some column ∧
      KeyTest.ReadAt schema p c.binding.column position column.type := by
  have hreads : ∀ e t, KeyTest.ofExpr? schema e = some t → t.column = c.binding.column →
      ∃ i column name, schema.findIdx? (·.simple == c.binding.column) = some i ∧
        schema[i]? = some column ∧ t.value.isKeyFor column.type = true ∧
        e.columnComparison? = some (name, t.op, t.value) ∧ schema.find name = .ok i := by
    intro e t ht hcolumn
    obtain ⟨name, i, column, hcomparison, hfind, hget, hsimple, hkey⟩ :=
      KeyTest.ofExpr?_eq_some ht
    have hi := hfirst name i column hfind hget
    rw [hsimple, hcolumn] at hi
    exact ⟨i, column, name, hi, hget, hkey, hcomparison, hfind⟩
  obtain ⟨t, ht⟩ := List.exists_mem_of_ne_nil _ (KeyTest.ne_nil_of_lookup? hlookup)
  obtain ⟨hmem, hcolumn⟩ := List.mem_filter.mp ht
  obtain ⟨e, -, htest⟩ := List.mem_filterMap.mp hmem
  obtain ⟨position, column, -, hposition, hget, -⟩ := hreads e t htest (eq_of_beq hcolumn)
  refine ⟨position, column, hposition, hget, ?_⟩
  intro e _ t ht hcolumn
  obtain ⟨i, column', name, hi, hget', hkey, hcomparison, hfind⟩ := hreads e t ht hcolumn
  cases hposition.symm.trans hi
  cases hget.symm.trans hget'
  exact ⟨hkey, name, hcomparison, hfind⟩

variable {position : ℕ} {column : Column} {columns : ℕ → Prop}
  (hlookup : c.binding.lookup? (KeyTest.ofPredicate schema p) = some c.lookup)
  (hread : KeyTest.ReadAt schema p c.binding.column position column.type)
  (hget : schema[position]? = some column) (hp : p.AvoidsDoubles schema columns)
  (hposition : columns position)
include hlookup hread hget hp hposition

/-- The keys of the look-up are compared like the values of the column. -/
theorem comparesAs_of_key {key : Row}
    (hkey : c.lookup.lower.key? = some key ∨ c.lookup.upper.key? = some key) :
    ∃ v : Datum, key = [v] ∧ v.ComparesAs column.type := by
  obtain ⟨t, ht, rfl⟩ := KeyTest.exists_test_of_key hlookup hkey
  obtain ⟨hmem, hcolumn⟩ := List.mem_filter.mp ht
  obtain ⟨e, he, htest⟩ := List.mem_filterMap.mp hmem
  obtain ⟨hkeyFor, name, hcomparison, hfind⟩ := hread e he t htest (eq_of_beq hcolumn)
  obtain ⟨htype, hvalue⟩ :=
    hp e he name t.op t.value position column hcomparison hfind hget hposition
  exact ⟨t.value, rfl, Datum.comparesAs_of_isKeyFor hkeyFor htype hvalue⟩

/-- If the bounds are taken to be inverted, the predicate keeps no row. -/
theorem kept_eq_nil_of_inverted {rows kept : List Row} {b : BoundExpr}
    (hkeys : c.binding.reader.order.keys = [⟨0, c.binding.ascending, false⟩])
    (hcolumn : Row.HaveColumn position column.type rows) (hbind : p.bind schema = .ok b)
    (hkept : RowSource.keep b.keeps rows = some kept) (hinverted : c.inverted = true) :
    kept = [] := by
  have htyped : ∀ bound : Index.Bound,
      (∀ key, bound.key? = some key →
        c.lookup.lower.key? = some key ∨ c.lookup.upper.key? = some key) →
      bound.Typed (fun _ => column.type) c.binding.reader.order := by
    intro bound hbound key hkey
    obtain ⟨v, rfl, hv⟩ := comparesAs_of_key hlookup hread hget hp hposition (hbound key hkey)
    exact typed_singleton hkeys (Or.inr hv)
  obtain ⟨-, rfl⟩ := RowSource.keep_eq_some hkept
  apply List.filter_eq_nil_iff.mpr
  intro row hrow hpasses
  have hadmits := admits_of_isTrue hlookup hread hkeys
    (⟨b, hbind, BoundExpr.eval_of_passes hpasses⟩ : p.IsTrue schema row)
  obtain ⟨d, hd, htype⟩ := hcolumn row hrow
  have hnone := Index.Bound.admits_eq_false_of_inverted
    (typed_singleton hkeys (htype.imp_right Datum.comparesAs_of_type))
    (htyped _ fun key => Or.inl) (htyped _ fun key => Or.inr) hinverted
  rw [Row.select_singleton hd, IndexLookup.admits, hnone] at hadmits
  exact Bool.false_ne_true hadmits

end Choice

end IndexChoice

theorem Plan.relation?_filter_scanTable (ctx : TaskContext) (disk : Disk) (p : Expr) (table : String)
    (schema : Schema) (hint : Option UInt64) :
    (filter p (.scan ⟨.table table, schema, none, hint⟩)).relation? ctx disk =
      (Operator.scanOfTable ctx table schema (some p)).toOption.bind (Operator.relation? disk) :=
  relation?_filter_scan ctx disk p _

/-- Where no index is chosen the rows of the file are filtered. -/
theorem Plan.relation?_filter_scanTable_of_none {ctx : TaskContext} {disk : Disk} {p : Expr}
    {table : String} {schema : Schema} {data : Fragment} {hint : Option UInt64}
    (hfiles : ctx.filesOf table = [data])
    (hchoice : IndexChoice.ofPredicate? ctx table schema p = none) :
    (filter p (.scan ⟨.table table, schema, none, hint⟩)).relation? ctx disk =
      (disk.rows? data.path).bind (Relation.stored? schema (some p)) := by
  have hrows : RowSource.filesRows? disk [data] = disk.rows? data.path := by
    rw [RowSource.filesRows?, RowSource.filesRows?]
    cases disk.rows? data.path with
    | none => rfl
    | some rows => rw [Option.bind_some, Option.map_some, List.append_nil]
  rw [relation?_filter_scanTable, Operator.scanOfTable_eq, Option.bind_some, hchoice]
  dsimp only [Option.map_none]
  rw [Operator.filesOfTable, hfiles]
  dsimp only
  rw [Operator.relation?_scanOfFiles, hrows]

theorem IndexChoice.ofPredicate?_eq_none_of_nil {ctx : TaskContext} (h : ctx.indexes = [])
    {table : String} {schema : Schema} {p : Expr} : ofPredicate? ctx table schema p = none := by
  have hnone : ctx.indexesOn table = [] := by
    rw [TaskContext.indexesOn, h]
    split <;> rfl
  rw [ofPredicate?, hnone]
  rfl

/-- A table whose rows are in one file, and whose indexes list these rows. -/
structure IndexedTable (ctx : TaskContext) (disk : Disk) (table : String) (schema : Schema)
    (data : Fragment) (rows : List Row) : Prop where
  files : ctx.filesOf table = [data]
  opens : RowReader.open? disk data.path = .ok (.ofContent data.path (rows.flatMap Record.encode))
  fits : ∀ row ∈ rows, row.Fits
  size : (rows.flatMap Record.encode).length ≤ 2 ^ 62
  values : ∀ i c, schema[i]? = some c → Row.HaveColumn i c.type rows
  findsFirst : schema.FindsFirst
  indexes : ∀ b ∈ ctx.indexesOn table, ∀ i, schema.findIdx? (·.simple == b.column) = some i →
    ∃ listed, b.Covers rows i listed

/-- Whether a column of a table has an index in a context. -/
def TaskContext.HasIndexAt (ctx : TaskContext) (table : String) (schema : Schema) (i : ℕ) : Prop :=
  ∃ b ∈ ctx.indexesOn table, schema.findIdx? (·.simple == b.column) = some i

namespace IndexedTable

variable {ctx plain : TaskContext} {disk : Disk} {table : String} {schema : Schema}
  {data : Fragment} {rows kept : List Row} {p : Expr} {c : IndexChoice} {b : BoundExpr}

/-- The rows of the index that is chosen, checked again, are those that the file has. -/
theorem kept_of_choice (h : IndexedTable ctx disk table schema data rows)
    (hp : p.AvoidsDoubles schema (ctx.HasIndexAt table schema))
    (hchoice : IndexChoice.ofPredicate? ctx table schema p = some c)
    (hbind : p.bind schema = .ok b) (hkept : RowSource.keep b.keeps rows = some kept) :
    ∃ found, ((RowSource.indexScan disk (c.scan schema)).filter b).yield? = some found ∧
      found.Perm kept := by
  obtain ⟨hmem, hlookup⟩ := IndexChoice.ofPredicate?_eq_some hchoice
  obtain ⟨position, column, hposition, hget, hread⟩ :=
    IndexChoice.exists_readAt h.findsFirst hlookup
  obtain ⟨listed, hcovers⟩ := h.indexes c.binding hmem position hposition
  have hcolumn := h.values position column hget
  have hdata : c.binding.data = data := by
    have hin := TaskContext.mem_filesOf_of_mem_indexesOn hmem
    rw [h.files] at hin
    exact List.mem_singleton.mp hin
  obtain ⟨found, hfound, hinverted, hperm⟩ := IndexChoice.kept_of_scan hlookup hread hcovers hcolumn
    h.fits (h.size.trans (by decide)) (by rw [hdata]; exact h.opens) hbind hkept
  refine ⟨found, hfound, ?_⟩
  cases hc : c.inverted with
  | false => exact hperm hc
  | true =>
    have hnil := IndexChoice.kept_eq_nil_of_inverted hlookup hread hget hp ⟨_, hmem, hposition⟩
      hcovers.keys hcolumn hbind hkept hc
    rw [hinverted hc, hnil]

/-- With its indexes a table answers a filter by the rows that it has without them, in some order. -/
theorem answer_perm (h : IndexedTable ctx disk table schema data rows)
    (hp : p.AvoidsDoubles schema (ctx.HasIndexAt table schema)) (hint : Option UInt64)
    (hfiles : plain.filesOf table = [data]) (hnone : plain.indexes = [])
    (hkept : (Plan.filter p (.scan ⟨.table table, schema, none, hint⟩)).answer plain disk =
      .ok kept) :
    ∃ found, (Plan.filter p (.scan ⟨.table table, schema, none, hint⟩)).answer ctx disk =
      .ok found ∧ found.Perm kept := by
  obtain ⟨schema', hrelation⟩ := (Plan.answer_ok_iff plain disk).mp hkept
  rw [Plan.relation?_filter_scanTable_of_none hfiles
    (IndexChoice.ofPredicate?_eq_none_of_nil hnone)] at hrelation
  cases hchoice : IndexChoice.ofPredicate? ctx table schema p with
  | none =>
    refine ⟨kept, (Plan.answer_ok_iff ctx disk).mpr ⟨schema', ?_⟩, List.Perm.refl _⟩
    rw [Plan.relation?_filter_scanTable_of_none h.files hchoice, hrelation]
  | some c =>
    rw [Disk.rows?_of_open h.fits h.opens, Option.bind_some, Relation.stored?] at hrelation
    split at hrelation
    next =>
      obtain ⟨b, hbind, hkeep⟩ := Option.bind_eq_some_iff.mp hrelation
      obtain ⟨kept', hkeep, heq⟩ := Option.map_eq_some_iff.mp hkeep
      cases heq
      have hbind := Except.toOption_eq_some.mp hbind
      obtain ⟨found, hfound, hperm⟩ := h.kept_of_choice hp hchoice hbind hkeep
      refine ⟨found, (Plan.answer_ok_iff ctx disk).mpr ⟨schema, ?_⟩, hperm⟩
      have hbound : (Operator.indexScan (c.scan schema)).bound p = .ok b := by
        rw [Operator.bound, Except.mapError_eq_ok]
        exact hbind
      rw [Plan.relation?_filter_scanTable, Operator.scanOfTable_eq, Option.bind_some, hchoice,
        Option.map_some]
      dsimp only
      rw [Operator.filtering, hbound]
      exact congrArg (Option.map (Relation.mk schema)) hfound
    next => cases hrelation

end IndexedTable

end BlockQuery
