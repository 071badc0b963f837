import Mathlib.Data.List.TakeWhile
import BlockQuery.Proofs.Except
import BlockQuery.RowOrder

/-!
# Columns by name

The columns of a table have its name before their simple names, which tell them
apart.  A sort spec may name its column by a part of the column's name.  Under
the whole name the same column is found, so that both orders are the same.
-/

namespace BlockQuery

/-! ## Simple names -/

theorem simpleName_of_notMem {name : String} (h : '.' ∉ name.toList) : simpleName name = name := by
  rw [simpleName, List.takeWhile_eq_self_iff.mpr, List.reverse_reverse, String.ofList_toList]
  intro c hc
  exact decide_eq_true fun hdot => h (hdot ▸ List.mem_reverse.mp hc)

theorem notMem_simpleName (name : String) : '.' ∉ (simpleName name).toList := by
  intro hmem
  rw [simpleName, String.toList_ofList, List.mem_reverse] at hmem
  have hdot := List.mem_takeWhile_imp hmem
  exact absurd rfl (of_decide_eq_true hdot)

/-- The simple name of a qualified name is what stands behind the qualifier. -/
theorem simpleName_append {name : String} (h : '.' ∉ name.toList) (qualifier : String) :
    simpleName (qualifier ++ "." ++ name) = name := by
  have hall : ∀ c ∈ name.toList.reverse, decide (c ≠ '.') = true := by
    intro c hc
    exact decide_eq_true fun hdot => h (hdot ▸ List.mem_reverse.mp hc)
  have hreverse : (qualifier ++ "." ++ name).toList.reverse =
      name.toList.reverse ++ '.' :: qualifier.toList.reverse := by
    simp
  rw [simpleName, hreverse, List.takeWhile_append_of_pos hall]
  simp

theorem Column.simple_qualified (c : Column) (table : String) :
    (c.qualified table).simple = c.simple :=
  simpleName_append (notMem_simpleName c.name) table

/-! ## Finding columns -/

namespace Schema

variable {schema : Schema} {name : String} {i : ℕ}

theorem mem_answering :
    i ∈ schema.answering name ↔ ∃ c, schema[i]? = some c ∧ c.answersTo name = true := by
  rw [answering, List.mem_map]
  constructor
  · rintro ⟨⟨c, j⟩, hmem, rfl⟩
    obtain ⟨hc, hanswers⟩ := List.mem_filter.mp hmem
    exact ⟨c, List.mem_zipIdx_iff_getElem?.mp hc, hanswers⟩
  · rintro ⟨c, hc, hanswers⟩
    exact ⟨(c, i), List.mem_filter.mpr ⟨List.mem_zipIdx_iff_getElem?.mpr hc, hanswers⟩, rfl⟩

theorem answersTo_congr {c d : Column} (h : c.name = d.name) (name : String) :
    c.answersTo name = d.answersTo name := by
  rw [Column.answersTo, Column.answersTo, Column.simple, Column.simple, h]

theorem find_of_findIdx? (h : schema.findIdx? (·.name == name) = some i) :
    schema.find name = .ok i := by
  rw [find, h]

/-- The column that was found is the first one of its whole name. -/
theorem exists_column_of_find (h : schema.find name = .ok i) :
    ∃ c, schema[i]? = some c ∧ schema.findIdx? (·.name == c.name) = some i := by
  rw [find] at h
  split at h
  next j hfirst =>
    cases h
    obtain ⟨hi, hname, _⟩ := List.findIdx?_eq_some_iff_getElem.mp hfirst
    refine ⟨schema[i], List.getElem?_eq_getElem hi, ?_⟩
    rwa [eq_of_beq hname]
  next hnone =>
    split at h
    next => cases h
    next j hone =>
      cases h
      have hself : i ∈ schema.answering name := by
        rw [hone]
        exact List.mem_singleton_self i
      obtain ⟨c, hc, hanswers⟩ := mem_answering.mp hself
      obtain ⟨j, hj⟩ : ∃ j, schema.findIdx? (·.name == c.name) = some j := by
        apply Option.isSome_iff_exists.mp
        rw [List.findIdx?_isSome, List.any_eq_true]
        exact ⟨c, List.mem_of_getElem? hc, beq_self_eq_true c.name⟩
      obtain ⟨hlt, hname, _⟩ := List.findIdx?_eq_some_iff_getElem.mp hj
      have hother : j ∈ schema.answering name := by
        apply mem_answering.mpr
        refine ⟨schema[j], List.getElem?_eq_getElem hlt, ?_⟩
        rw [answersTo_congr (eq_of_beq hname), hanswers]
      rw [hone, List.mem_singleton] at hother
      subst hother
      exact ⟨c, hc, hj⟩
    next => cases h

/-! ## Columns under the name of a table -/

/-- Whether a column that is found by any name is the first one of its simple name. -/
def FindsFirst (schema : Schema) : Prop :=
  ∀ name i c, schema.find name = .ok i → schema[i]? = some c →
    schema.findIdx? (·.simple == c.simple) = some i

theorem findIdx?_congr {p q : Column → Bool} (h : ∀ c ∈ schema, p c = q c) :
    schema.findIdx? p = schema.findIdx? q := by
  induction schema with
  | nil => rfl
  | cons c schema ih =>
    obtain ⟨hc, hrest⟩ := List.forall_mem_cons.mp h
    rw [List.findIdx?_cons, List.findIdx?_cons, hc, ih hrest]

/-- Under the name of a table the simple names of columns tell them apart like their whole names. -/
theorem findsFirst_qualified (schema : Schema) (table : String) :
    (schema.qualified table).FindsFirst := by
  have hname : ∀ c ∈ schema.qualified table, c.name = table ++ "." ++ c.simple := by
    intro c hc
    obtain ⟨d, -, rfl⟩ := List.mem_map.mp hc
    rw [Column.simple_qualified]
    rfl
  intro name i c hfind hget
  obtain ⟨c', hget', hfirst⟩ := exists_column_of_find hfind
  cases hget.symm.trans hget'
  rw [← hfirst]
  apply findIdx?_congr
  intro d hd
  rw [hname d hd, hname c (List.mem_of_getElem? hget), Bool.eq_iff_iff, beq_iff_eq, beq_iff_eq,
    String.append_right_inj]

/-- Columns without qualifiers are told apart by their simple names under the name of a table. -/
theorem findIdx?_qualified (hnames : ∀ c ∈ schema, '.' ∉ c.name.toList) (table column : String) :
    (schema.qualified table).findIdx? (·.simple == column) =
      schema.findIdx? (·.name == column) := by
  rw [qualified, List.findIdx?_map]
  apply findIdx?_congr
  intro c hc
  dsimp only [Function.comp_apply]
  rw [Column.simple_qualified, Column.simple, simpleName_of_notMem (hnames c hc)]

end Schema

/-! ## Sort specs -/

/-- A sort spec by the whole name of the column that it means. -/
def SortSpec.named (schema : Schema) (spec : SortSpec) : SortSpec :=
  match schema.find spec.column with
  | .ok i => { spec with column := (schema[i]?.map Column.name).getD spec.column }
  | .error _ => spec

namespace RowOrder

variable {schema : Schema} {spec : SortSpec} {specs : List SortSpec} {order : RowOrder}

theorem resolve_named (schema : Schema) (spec : SortSpec) :
    resolve schema (spec.named schema) = resolve schema spec := by
  rw [SortSpec.named]
  split
  next i hfind =>
    obtain ⟨c, hc, hfirst⟩ := Schema.exists_column_of_find hfind
    have hagain := Schema.find_of_findIdx? hfirst
    rw [hc, Option.map_some, Option.getD_some, resolve, resolve, hagain, hfind]
  next => rfl

theorem mapM_resolve_of_ofSpecs (h : ofSpecs schema specs = .ok order) :
    specs.mapM (resolve schema) = .ok order.keys := by
  rw [ofSpecs] at h
  cases hkeys : specs.mapM (resolve schema) with
  | error e =>
    rw [hkeys] at h
    cases h
  | ok keys =>
    rw [hkeys] at h
    cases h
    rfl

theorem ofSpecs_named (h : ofSpecs schema specs = .ok order) :
    ofSpecs schema (specs.map (SortSpec.named schema)) =
      .ok ⟨order.keys, specs.map (SortSpec.named schema)⟩ := by
  have hsame : (specs.map (SortSpec.named schema)).mapM (resolve schema) =
      specs.mapM (resolve schema) := by
    rw [List.mapM_map]
    congr 1
    funext spec
    exact resolve_named schema spec
  rw [ofSpecs, hsame, mapM_resolve_of_ofSpecs h]
  rfl

theorem exists_ofSpecs (h : ∀ spec ∈ specs, ∃ i, schema.find spec.column = .ok i) :
    ∃ order, ofSpecs schema specs = .ok order := by
  have hkeys : ∀ spec ∈ specs, ∃ key, resolve schema spec = .ok key := by
    intro spec hmem
    obtain ⟨i, hfind⟩ := h spec hmem
    refine ⟨⟨i, spec.ascending, spec.nullsFirst⟩, ?_⟩
    rw [resolve, hfind]
    rfl
  obtain ⟨keys, hall⟩ := Except.exists_mapM hkeys
  refine ⟨⟨keys, specs⟩, ?_⟩
  rw [ofSpecs, hall]
  rfl

/-- Each spec of an order means one of the columns. -/
theorem exists_find_of_ofSpecs (h : ofSpecs schema specs = .ok order) :
    ∀ spec ∈ specs, ∃ i, schema.find spec.column = .ok i ∧ i < schema.length := by
  intro spec hmem
  obtain ⟨key, _, hkey⟩ := Except.exists_of_mapM (mapM_resolve_of_ofSpecs h) spec hmem
  rw [resolve] at hkey
  cases hfind : schema.find spec.column with
  | error e =>
    rw [hfind] at hkey
    cases hkey
  | ok i =>
    obtain ⟨c, hc, _⟩ := Schema.exists_column_of_find hfind
    exact ⟨i, rfl, (List.getElem?_eq_some_iff.mp hc).1⟩

end RowOrder

end BlockQuery
