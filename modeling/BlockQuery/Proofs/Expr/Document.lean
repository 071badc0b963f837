import BlockQuery.Expr.Document
import BlockQuery.Proofs.Json.Record

/-!
# Documents of expressions

Each value, schema and expression is read back from its document, alone or
within a tagged record.
-/

namespace BlockQuery

open Json (Setting)

/-! ## Names -/

theorem DataType.ofJson?_toJson (setting : Setting) (t : DataType) :
    DataType.ofJson? setting t.toJson = some t := by
  rw [ofJson?, toJson, Json.choice?, Option.bind_some, ofDocumentName?_documentName]

theorem BinaryOp.ofJson?_documentName (setting : Setting) (op : BinaryOp) :
    BinaryOp.ofJson? setting (.text op.documentName) = some op := by
  rw [ofJson?, Json.choice?, Option.bind_some, ofDocumentName?_documentName]

/-! ## Values -/

namespace Datum

theorem proper_toJson (d : Datum) : d.toJson.Proper := by
  cases d with
  | null =>
    refine Json.proper_object (by simp) ?_
    exact List.forall_mem_singleton.mpr (Json.proper_text _)
  | bool | int4 | int8 | float8 | text =>
    refine Json.proper_object (by simp) ?_
    rw [List.forall_mem_cons, List.forall_mem_singleton]
    exact ⟨⟨rfl, rfl⟩, ⟨rfl, rfl⟩⟩

theorem ofJson?_toJson (setting : Setting) (d : Datum) :
    Datum.ofJson? setting d.toJson = some d := by
  have hvalue : ∀ (type : String) (v : Json),
      Datum.ofJson? setting (.object [("type", .text type), ("value", v)]) = ofTyped? type v := by
    intro type v
    have hfields : Json.Record.fields? ["type", "value"]
        (.named [("type", .text type), ("value", v)]) = some [some (.text type), some v] :=
      Json.fields?_named (by simp)
    rw [ofJson?, hfields]
    rfl
  cases d with
  | null => rfl
  | bool b => exact hvalue _ _
  | int4 n =>
    have hbounds : -0x80000000 ≤ n.toInt ∧ n.toInt ≤ 0x7fffffff := ⟨n.le_toInt, n.toInt_le⟩
    rw [toJson, hvalue, ofTyped?, Json.toWhole?, if_pos hbounds, Option.map_some, Int32.ofInt_toInt]
  | int8 n =>
    have hbounds : -0x8000000000000000 ≤ n.toInt ∧ n.toInt ≤ 0x7fffffffffffffff :=
      ⟨n.le_toInt, n.toInt_le⟩
    rw [toJson, hvalue, ofTyped?, Json.toWhole?, if_pos hbounds, Option.map_some, Int64.ofInt_toInt]
  | float8 x => exact hvalue _ _
  | text s => exact hvalue _ _

end Datum

/-! ## Schemas -/

theorem Column.proper_toJson (c : Column) : c.toJson.Proper := by
  refine Json.proper_object (by simp) ?_
  rw [List.forall_mem_cons, List.forall_mem_singleton]
  exact ⟨Json.proper_text _, Json.proper_text _⟩

theorem Column.ofJson?_toJson (setting : Setting) (c : Column) :
    Column.ofJson? setting c.toJson = some c := by
  have hfields : c.toJson.fields? ["name", "data_type"] =
      some [some (.text c.name), some c.type.toJson] := Json.fields?_named (by simp)
  rw [ofJson?, hfields]
  simp only [Option.bind_eq_bind, Option.bind_some, Json.toText?, DataType.ofJson?_toJson]
  rfl

theorem Schema.proper_toJson (schema : Schema) : schema.toJson.Proper := by
  refine Json.proper_object (by simp) ?_
  exact List.forall_mem_singleton.mpr (Json.proper_array_map Column.proper_toJson schema)

theorem Schema.ofJson?_toJson (setting : Setting) (schema : Schema) :
    Schema.ofJson? setting schema.toJson = some schema := by
  have hfields : schema.toJson.fields? ["columns"] =
      some [some (.array (List.map Column.toJson schema))] := Json.fields?_named (by simp)
  rw [ofJson?, hfields]
  exact Json.toListOf?_map fun c _ => c.ofJson?_toJson setting

theorem SortSpec.proper_toJson (spec : SortSpec) : spec.toJson.Proper := by
  refine Json.proper_object (by simp) ?_
  rw [List.forall_mem_cons, List.forall_mem_cons, List.forall_mem_singleton]
  exact ⟨Json.proper_text _, Json.proper_bool _, Json.proper_bool _⟩

theorem SortSpec.ofJson?_toJson (spec : SortSpec) : SortSpec.ofJson? spec.toJson = some spec := by
  have hfields : spec.toJson.fields? ["column", "ascending", "nulls_first"] =
      some [some (.text spec.column), some (.bool spec.ascending), some (.bool spec.nullsFirst)] :=
    Json.fields?_named (by simp)
  rw [ofJson?, hfields]
  rfl

/-! ## Expressions -/

namespace Expr

theorem proper_toJson (e : Expr) : e.toJson.Proper := by
  induction e with
  | column name =>
    refine Json.proper_object (by simp) ?_
    rw [List.forall_mem_cons, List.forall_mem_singleton]
    exact ⟨Json.proper_text _, Json.proper_text _⟩
  | literal value =>
    refine Json.proper_object (by simp) ?_
    rw [List.forall_mem_cons, List.forall_mem_singleton]
    exact ⟨Json.proper_text _, value.proper_toJson⟩
  | binary op left right ihl ihr =>
    refine Json.proper_object (by simp) ?_
    rw [List.forall_mem_cons, List.forall_mem_cons, List.forall_mem_cons, List.forall_mem_singleton]
    exact ⟨Json.proper_text _, Json.proper_text _, ihl, ihr⟩
  | not inner ih =>
    refine Json.proper_object (by simp) ?_
    rw [List.forall_mem_cons, List.forall_mem_singleton]
    exact ⟨Json.proper_text _, ih⟩
  | isNull inner negated ih =>
    refine Json.proper_object (by simp) ?_
    rw [List.forall_mem_cons, List.forall_mem_cons, List.forall_mem_singleton]
    exact ⟨Json.proper_text _, ih, Json.proper_bool _⟩
  | like inner pattern negated ih =>
    refine Json.proper_object (by simp) ?_
    rw [List.forall_mem_cons, List.forall_mem_cons, List.forall_mem_cons, List.forall_mem_singleton]
    exact ⟨Json.proper_text _, ih, Json.proper_text _, Json.proper_bool _⟩

/-- An expression is read back from its document, given as many levels as the document has. -/
theorem ofJsonWithin?_toJson (e : Expr) {n : ℕ} (setting : Setting) (h : e.toJson.depth ≤ n) :
    ofJsonWithin? n setting e.toJson = some e := by
  have hread : ∀ e : Expr, e.toJson.isReadable = true := fun e => e.proper_toJson.readable
  induction e generalizing n setting with
  | column name =>
    obtain ⟨n, rfl, -⟩ := Json.depth_object_le h
    have hfields : Json.Record.fields? ["name"] (.named [("name", .text name)]) =
        some [some (.text name)] := Json.fields?_named (by simp)
    rw [ofJsonWithin?, toJson, Json.tagged?_object (by decide) (by simp) (hread (column name))]
    simp only [Option.bind_eq_bind, Option.bind_some, hfields]
    rfl
  | literal value =>
    obtain ⟨n, rfl, -⟩ := Json.depth_object_le h
    have hfields : Json.Record.fields? ["value"] (.named [("value", value.toJson)]) =
        some [some value.toJson] := Json.fields?_named (by simp)
    rw [ofJsonWithin?, toJson, Json.tagged?_object (by decide) (by simp) (hread (literal value))]
    simp only [Option.bind_eq_bind, Option.bind_some, hfields, Datum.ofJson?_toJson]
    rfl
  | binary op left right ihl ihr =>
    obtain ⟨n, rfl, hdepth⟩ := Json.depth_object_le h
    have hfields : Json.Record.fields? ["op", "left", "right"]
        (.named [("op", .text op.documentName), ("left", left.toJson), ("right", right.toJson)]) =
          some [some (.text op.documentName), some left.toJson, some right.toJson] :=
      Json.fields?_named (by simp)
    rw [ofJsonWithin?, toJson, Json.tagged?_object (by decide) (by simp) (hread (binary op left right))]
    simp only [Option.bind_eq_bind, Option.bind_some, hfields, BinaryOp.ofJson?_documentName,
      ihl .within (hdepth ("left", left.toJson) (by simp)),
      ihr .within (hdepth ("right", right.toJson) (by simp))]
    rfl
  | not inner ih =>
    obtain ⟨n, rfl, hdepth⟩ := Json.depth_object_le h
    have hfields : Json.Record.fields? ["expr"] (.named [("expr", inner.toJson)]) =
        some [some inner.toJson] := Json.fields?_named (by simp)
    rw [ofJsonWithin?, toJson, Json.tagged?_object (by decide) (by simp) (hread (not inner))]
    simp only [Option.bind_eq_bind, Option.bind_some, hfields,
      ih .within (hdepth ("expr", inner.toJson) (by simp))]
    rfl
  | isNull inner negated ih =>
    obtain ⟨n, rfl, hdepth⟩ := Json.depth_object_le h
    have hfields : Json.Record.fields? ["expr", "negated"]
        (.named [("expr", inner.toJson), ("negated", .bool negated)]) =
          some [some inner.toJson, some (.bool negated)] := Json.fields?_named (by simp)
    rw [ofJsonWithin?, toJson, Json.tagged?_object (by decide) (by simp) (hread (isNull inner negated))]
    simp only [Option.bind_eq_bind, Option.bind_some, hfields,
      ih .within (hdepth ("expr", inner.toJson) (by simp))]
    rfl
  | like inner pattern negated ih =>
    obtain ⟨n, rfl, hdepth⟩ := Json.depth_object_le h
    have hfields : Json.Record.fields? ["expr", "pattern", "negated"]
        (.named [("expr", inner.toJson), ("pattern", .text pattern), ("negated", .bool negated)]) =
          some [some inner.toJson, some (.text pattern), some (.bool negated)] :=
      Json.fields?_named (by simp)
    rw [ofJsonWithin?, toJson, Json.tagged?_object (by decide) (by simp) (hread (like inner pattern negated))]
    simp only [Option.bind_eq_bind, Option.bind_some, hfields,
      ih .within (hdepth ("expr", inner.toJson) (by simp))]
    rfl

theorem ofJson?_toJson (setting : Setting) (e : Expr) : ofJson? setting e.toJson = some e :=
  e.ofJsonWithin?_toJson setting (Nat.le_refl _)

end Expr

end BlockQuery
