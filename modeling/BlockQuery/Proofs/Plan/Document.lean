import BlockQuery.Plan.Document
import BlockQuery.Proofs.Expr.Document
import BlockQuery.Proofs.Json.Text

/-!
# Documents of plans

A plan is read back from its document, and from its text as far as the text keeps
the document.  A document of another version is refused by its version, whatever
else it holds.
-/

namespace BlockQuery

open Json (Setting)

theorem Expr.isNull_toJson (e : Expr) : e.toJson.isNull = false := by
  cases e <;> rfl

/-- An expression that may be missing is read back. -/
theorem Json.toOption?_ofExpr (setting : Setting) (o : Option Expr) :
    Json.toOption? (Expr.ofJson? setting) (some (Json.ofOption Expr.toJson o)) = some o :=
  Json.toOption?_ofOption Expr.isNull_toJson fun e _ => e.ofJson?_toJson setting

/-! ## Parts of plans -/

namespace ScanSource

theorem proper_toJson (s : ScanSource) : s.toJson.Proper := by
  cases s with
  | table name =>
    refine Json.proper_object (by simp) ?_
    rw [List.forall_mem_cons, List.forall_mem_singleton]
    exact ⟨Json.proper_text _, Json.proper_text _⟩
  | block seq =>
    refine Json.proper_object (by simp) ?_
    rw [List.forall_mem_cons, List.forall_mem_singleton]
    exact ⟨Json.proper_text _, Json.proper_whole _⟩

theorem ofJson?_toJson (setting : Setting) (s : ScanSource) :
    ScanSource.ofJson? setting s.toJson = some s := by
  have hread : s.toJson.isReadable = true := s.proper_toJson.readable
  cases s with
  | table name =>
    have hfields : Json.Record.fields? ["table"] (.named [("table", .text name)]) =
        some [some (.text name)] := Json.fields?_named (by simp)
    rw [ofJson?, toJson, Json.tagged?_object (by decide) (by simp) hread]
    simp only [Option.bind_eq_bind, Option.bind_some, hfields]
    rfl
  | block seq =>
    have hfields : Json.Record.fields? ["seq"] (.named [("seq", .whole seq.toNat)]) =
        some [some (.whole seq.toNat)] := Json.fields?_named (by simp)
    rw [ofJson?, toJson, Json.tagged?_object (by decide) (by simp) hread]
    simp only [Option.bind_eq_bind, Option.bind_some, hfields, Json.toUInt32?_whole]
    rfl

end ScanSource

theorem Aggregate.proper_toJson (a : Aggregate) : a.toJson.Proper := by
  refine Json.proper_object (by simp) ?_
  rw [List.forall_mem_cons, List.forall_mem_cons, List.forall_mem_singleton]
  exact ⟨Json.proper_text _, Json.proper_ofOption Expr.proper_toJson _, Json.proper_text _⟩

theorem Aggregate.ofJson?_toJson (setting : Setting) (a : Aggregate) :
    Aggregate.ofJson? setting a.toJson = some a := by
  have hfields : a.toJson.fields? ["func", "arg", "name"] =
      some [some (.text a.function.name), some (.ofOption Expr.toJson a.argument),
        some (.text a.name)] := Json.fields?_named (by simp)
  rw [ofJson?, hfields]
  simp only [Option.bind_eq_bind, Option.bind_some, Json.choice?, Json.toText?,
    AggregateFunction.ofName?_name, Json.toOption?_ofExpr]
  rfl

theorem Target.proper_toJson (t : Target) : t.toJson.Proper := by
  refine Json.proper_object (by simp) ?_
  rw [List.forall_mem_cons, List.forall_mem_cons, List.forall_mem_singleton]
  exact ⟨t.expr.proper_toJson, Json.proper_text _, Json.proper_text _⟩

theorem Target.ofJson?_toJson (setting : Setting) (t : Target) :
    Target.ofJson? setting t.toJson = some t := by
  have hfields : t.toJson.fields? ["expr", "name", "data_type"] =
      some [some t.expr.toJson, some (.text t.name), some t.type.toJson] :=
    Json.fields?_named (by simp)
  rw [ofJson?, hfields]
  simp only [Option.bind_eq_bind, Option.bind_some, Expr.ofJson?_toJson, Json.toText?,
    DataType.ofJson?_toJson]
  rfl

/-! ## Plans -/

namespace Plan

theorem proper_toJson (p : Plan) : p.toJson.Proper := by
  induction p with
  | root child ih =>
    refine Json.proper_object (by simp) ?_
    rw [List.forall_mem_cons, List.forall_mem_singleton]
    exact ⟨Json.proper_text _, ih⟩
  | scan s =>
    refine Json.proper_object (by simp) ?_
    rw [List.forall_mem_cons, List.forall_mem_cons, List.forall_mem_cons, List.forall_mem_cons,
      List.forall_mem_singleton]
    exact ⟨Json.proper_text _, s.source.proper_toJson, s.schema.proper_toJson,
      Json.proper_ofOption Expr.proper_toJson _,
      Json.proper_ofOption (fun n : UInt64 => Json.proper_whole n.toNat) _⟩
  | join type condition left right schema ihl ihr =>
    refine Json.proper_object (by simp) ?_
    rw [List.forall_mem_cons, List.forall_mem_cons, List.forall_mem_cons, List.forall_mem_cons,
      List.forall_mem_cons, List.forall_mem_singleton]
    exact ⟨Json.proper_text _, Json.proper_text _, Json.proper_ofOption Expr.proper_toJson _, ihl,
      ihr, schema.proper_toJson⟩
  | filter predicate input ih =>
    refine Json.proper_object (by simp) ?_
    rw [List.forall_mem_cons, List.forall_mem_cons, List.forall_mem_singleton]
    exact ⟨Json.proper_text _, predicate.proper_toJson, ih⟩
  | groupBy keys aggregates input schema ih =>
    refine Json.proper_object (by simp) ?_
    rw [List.forall_mem_cons, List.forall_mem_cons, List.forall_mem_cons, List.forall_mem_cons,
      List.forall_mem_singleton]
    exact ⟨Json.proper_text _, Json.proper_array_map Json.proper_text keys,
      Json.proper_array_map Aggregate.proper_toJson aggregates, ih, schema.proper_toJson⟩
  | sort specs input ih =>
    refine Json.proper_object (by simp) ?_
    rw [List.forall_mem_cons, List.forall_mem_cons, List.forall_mem_singleton]
    exact ⟨Json.proper_text _, Json.proper_array_map SortSpec.proper_toJson specs, ih⟩
  | project targets input schema ih =>
    refine Json.proper_object (by simp) ?_
    rw [List.forall_mem_cons, List.forall_mem_cons, List.forall_mem_cons, List.forall_mem_singleton]
    exact ⟨Json.proper_text _, Json.proper_array_map Target.proper_toJson targets, ih,
      schema.proper_toJson⟩
  | createTable table schema store path =>
    refine Json.proper_object (by simp) ?_
    rw [List.forall_mem_cons, List.forall_mem_cons, List.forall_mem_cons, List.forall_mem_cons,
      List.forall_mem_singleton]
    exact ⟨Json.proper_text _, Json.proper_text _, schema.proper_toJson, Json.proper_text _,
      Json.proper_ofOption Json.proper_text _⟩

/-- A plan is read back from its document, given as many levels as the document has. -/
theorem ofJsonWithin?_toJson (p : Plan) {n : ℕ} (setting : Setting) (h : p.toJson.depth ≤ n) :
    ofJsonWithin? n setting p.toJson = some p := by
  have hread : ∀ p : Plan, p.toJson.isReadable = true := fun p => p.proper_toJson.readable
  induction p generalizing n setting with
  | root child ih =>
    obtain ⟨n, rfl, hdepth⟩ := Json.depth_object_le h
    have hfields : Json.Record.fields? ["child"] (.named [("child", child.toJson)]) =
        some [some child.toJson] := Json.fields?_named (by simp)
    rw [ofJsonWithin?, toJson, Json.tagged?_object (by decide) (by simp) (hread (root child))]
    simp only [Option.bind_eq_bind, Option.bind_some, hfields,
      ih .within (hdepth ("child", child.toJson) (by simp))]
    rfl
  | scan s =>
    obtain ⟨n, rfl, -⟩ := Json.depth_object_le h
    have hhint : Json.toOption? Json.toUInt64?
        (some (.ofOption (fun n : UInt64 => .whole n.toNat) s.rowHint)) = some s.rowHint :=
      Json.toOption?_ofOption (fun _ => rfl) fun n _ => Json.toUInt64?_whole n
    have hfields : Json.Record.fields? ["source", "schema", "filter", "row_hint"]
        (.named [("source", s.source.toJson), ("schema", s.schema.toJson),
          ("filter", .ofOption Expr.toJson s.filter),
          ("row_hint", .ofOption (fun n : UInt64 => .whole n.toNat) s.rowHint)]) =
        some [some s.source.toJson, some s.schema.toJson, some (.ofOption Expr.toJson s.filter),
          some (.ofOption (fun n : UInt64 => .whole n.toNat) s.rowHint)] :=
      Json.fields?_named (by simp)
    rw [ofJsonWithin?, toJson, Json.tagged?_object (by decide) (by simp) (hread (scan s))]
    simp only [Option.bind_eq_bind, Option.bind_some, hfields, ScanSource.ofJson?_toJson,
      Schema.ofJson?_toJson, Json.toOption?_ofExpr, hhint]
    rfl
  | join type condition left right schema ihl ihr =>
    obtain ⟨n, rfl, hdepth⟩ := Json.depth_object_le h
    have hfields : Json.Record.fields? ["join_type", "condition", "left", "right", "schema"]
        (.named [("join_type", .text type.documentName),
          ("condition", .ofOption Expr.toJson condition), ("left", left.toJson),
          ("right", right.toJson), ("schema", schema.toJson)]) =
        some [some (.text type.documentName), some (.ofOption Expr.toJson condition),
          some left.toJson, some right.toJson, some schema.toJson] := Json.fields?_named (by simp)
    rw [ofJsonWithin?, toJson, Json.tagged?_object (by decide) (by simp)
      (hread (join type condition left right schema))]
    simp only [Option.bind_eq_bind, Option.bind_some, hfields, Json.choice?,
      JoinType.ofDocumentName?_documentName, Json.toOption?_ofExpr,
      ihl .within (hdepth ("left", left.toJson) (by simp)),
      ihr .within (hdepth ("right", right.toJson) (by simp)), Schema.ofJson?_toJson]
    rfl
  | filter predicate input ih =>
    obtain ⟨n, rfl, hdepth⟩ := Json.depth_object_le h
    have hfields : Json.Record.fields? ["predicate", "input"]
        (.named [("predicate", predicate.toJson), ("input", input.toJson)]) =
        some [some predicate.toJson, some input.toJson] := Json.fields?_named (by simp)
    rw [ofJsonWithin?, toJson, Json.tagged?_object (by decide) (by simp)
      (hread (filter predicate input))]
    simp only [Option.bind_eq_bind, Option.bind_some, hfields, Expr.ofJson?_toJson,
      ih .within (hdepth ("input", input.toJson) (by simp))]
    rfl
  | groupBy keys aggregates input schema ih =>
    obtain ⟨n, rfl, hdepth⟩ := Json.depth_object_le h
    have hkeys : (Json.array (keys.map Json.text)).toListOf? Json.toText? = some keys :=
      Json.toListOf?_map fun _ _ => rfl
    have haggregates : (Json.array (aggregates.map Aggregate.toJson)).toListOf?
        (Aggregate.ofJson? .within) = some aggregates :=
      Json.toListOf?_map fun a _ => a.ofJson?_toJson .within
    have hfields : Json.Record.fields? ["keys", "aggregates", "input", "schema"]
        (.named [("keys", .array (keys.map Json.text)),
          ("aggregates", .array (aggregates.map Aggregate.toJson)), ("input", input.toJson),
          ("schema", schema.toJson)]) =
        some [some (.array (keys.map Json.text)), some (.array (aggregates.map Aggregate.toJson)),
          some input.toJson, some schema.toJson] := Json.fields?_named (by simp)
    rw [ofJsonWithin?, toJson, Json.tagged?_object (by decide) (by simp)
      (hread (groupBy keys aggregates input schema))]
    simp only [Option.bind_eq_bind, Option.bind_some, hfields, hkeys, haggregates,
      ih .within (hdepth ("input", input.toJson) (by simp)), Schema.ofJson?_toJson]
    rfl
  | sort specs input ih =>
    obtain ⟨n, rfl, hdepth⟩ := Json.depth_object_le h
    have hspecs : (Json.array (specs.map SortSpec.toJson)).toListOf? SortSpec.ofJson? =
        some specs := Json.toListOf?_map fun spec _ => spec.ofJson?_toJson
    have hfields : Json.Record.fields? ["specs", "input"]
        (.named [("specs", .array (specs.map SortSpec.toJson)), ("input", input.toJson)]) =
        some [some (.array (specs.map SortSpec.toJson)), some input.toJson] :=
      Json.fields?_named (by simp)
    rw [ofJsonWithin?, toJson, Json.tagged?_object (by decide) (by simp) (hread (sort specs input))]
    simp only [Option.bind_eq_bind, Option.bind_some, hfields, hspecs,
      ih .within (hdepth ("input", input.toJson) (by simp))]
    rfl
  | project targets input schema ih =>
    obtain ⟨n, rfl, hdepth⟩ := Json.depth_object_le h
    have htargets : (Json.array (targets.map Target.toJson)).toListOf? (Target.ofJson? .within) =
        some targets := Json.toListOf?_map fun t _ => t.ofJson?_toJson .within
    have hfields : Json.Record.fields? ["targets", "input", "schema"]
        (.named [("targets", .array (targets.map Target.toJson)), ("input", input.toJson),
          ("schema", schema.toJson)]) =
        some [some (.array (targets.map Target.toJson)), some input.toJson, some schema.toJson] :=
      Json.fields?_named (by simp)
    rw [ofJsonWithin?, toJson, Json.tagged?_object (by decide) (by simp)
      (hread (project targets input schema))]
    simp only [Option.bind_eq_bind, Option.bind_some, hfields, htargets,
      ih .within (hdepth ("input", input.toJson) (by simp)), Schema.ofJson?_toJson]
    rfl
  | createTable table schema store path =>
    obtain ⟨n, rfl, -⟩ := Json.depth_object_le h
    have hpath : Json.toOption? Json.toText? (some (.ofOption Json.text path)) = some path :=
      Json.toOption?_ofOption (fun _ => rfl) fun _ _ => rfl
    have hfields : Json.Record.fields? ["table", "schema", "store_type", "path"]
        (.named [("table", .text table), ("schema", schema.toJson),
          ("store_type", .text store.documentName), ("path", .ofOption Json.text path)]) =
        some [some (.text table), some schema.toJson, some (.text store.documentName),
          some (.ofOption Json.text path)] := Json.fields?_named (by simp)
    rw [ofJsonWithin?, toJson, Json.tagged?_object (by decide) (by simp)
      (hread (createTable table schema store path))]
    simp only [Option.bind_eq_bind, Option.bind_some, hfields, Json.toText?,
      Schema.ofJson?_toJson, Json.choice?, StoreType.ofDocumentName?_documentName, hpath]
    rfl

/-! ## Versions -/

theorem proper_toVersioned (p : Plan) : p.toVersioned.Proper := by
  refine Json.proper_object (by simp) ?_
  rw [List.forall_mem_cons, List.forall_mem_singleton]
  exact ⟨Json.proper_whole _, p.proper_toJson⟩

/-- Under its version number a plan is read back. -/
theorem ofVersioned_toVersioned (p : Plan) : ofVersioned p.toVersioned = .ok p := by
  have hmember : ∀ name v, (name, v) ∈ [("version", Json.whole planVersion), ("plan", p.toJson)] →
      p.toVersioned.member? name = some v := by
    intro name v hmem
    rw [toVersioned, Json.member?, Json.valuesOf_of_mem (by simp) hmem]
    rfl
  have hversion : (Json.whole planVersion).toUInt64? = some 1 := rfl
  have hplan : ofJson? .alone p.toJson = some p := p.ofJsonWithin?_toJson .alone (Nat.le_refl _)
  rw [ofVersioned, hmember "version" (.whole planVersion) (by simp), Option.bind_some, hversion]
  dsimp only
  rw [if_neg (by decide), hmember "plan" p.toJson (by simp), Option.bind_some, hplan]

/-- A plan is read back from its text, unless it has doubles or is nested too deeply. -/
theorem decode_encode {p : Plan} (h : p.toVersioned.Lossless Json.maxDepth) :
    decode p.encode = .ok p := by
  have hproper := p.proper_toVersioned
  rw [decode, encode, Json.parse?_indented h]
  dsimp only
  rw [if_pos hproper.readable, hproper.merged_eq, ofVersioned_toVersioned]

/-- The text of a plan as another printer writes it. -/
def encodeWith (print : Json → String) (p : Plan) : String := print p.toVersioned

/-- Reads the text of a plan as another parser reads it. -/
def decodeWith (parse : String → Option Json) (s : String) : Except PlanError Plan :=
  match parse s with
  | some v => if v.isReadable then ofVersioned v.merged else .error .malformed
  | none => .error .malformed

/-- Whatever prints and parses texts, a plan is read back from its text if the document is.  A text
is refused by the version of its document, or for having none, whatever its plan is. -/
theorem decode_encodeWith (print : Json → String) (parse : String → Option Json) :
    (encode = encodeWith Json.indented ∧ decode = decodeWith Json.parse?) ∧
    (∀ p : Plan, parse (print p.toVersioned) = some p.toVersioned →
      decodeWith parse (encodeWith print p) = .ok p) ∧
    ∀ s v, parse s = some v → v.isReadable = true →
      (∀ version, (v.member? "version").bind Json.toUInt64? = some version →
        version.toNat ≠ planVersion → decodeWith parse s = .error (.version version.toNat)) ∧
      ((v.member? "version").bind Json.toUInt64? = none →
        decodeWith parse s = .error .missingVersion) := by
  have hdecode : ∀ {s v}, parse s = some v → v.isReadable = true →
      decodeWith parse s = ofVersioned v.merged := by
    intro s v hparse hread
    rw [decodeWith, hparse]
    exact if_pos hread
  refine ⟨⟨rfl, rfl⟩, ?_, ?_⟩
  · intro p hparse
    have hproper := p.proper_toVersioned
    rw [encodeWith, hdecode hparse hproper.readable, hproper.merged_eq, ofVersioned_toVersioned]
  · intro s v hparse hread
    have hversion : (v.merged.member? "version").bind Json.toUInt64? =
        (v.member? "version").bind Json.toUInt64? := by
      rw [Json.member?_merged]
      cases v.member? "version" with
      | none => rfl
      | some w => exact w.toUInt64?_merged
    rw [hdecode hparse hread, ofVersioned, hversion]
    refine ⟨fun version hsome hne => ?_, fun hnone => ?_⟩
    · rw [hsome]
      exact if_pos hne
    · rw [hnone]

/-- A plan that is read back from its text, and the texts of two documents that are refused by their
versions. -/
theorem decode_encodeWith_sample :
    let plan := Plan.filter (.compare .lt (.column "a") (.literal (.int8 (-5))))
      (.scan ⟨.block 2, [⟨"t.a", .int8⟩], none, some 5⟩)
    let bare := Json.array [.whole 2]
    let later := Json.object [("version", .whole 2)]
    Json.parse? plan.toVersioned.indented = some plan.toVersioned ∧
      decodeWith Json.parse? (encodeWith Json.indented plan) = .ok plan ∧
      decodeWith Json.parse? bare.indented = .error .missingVersion ∧
      decodeWith Json.parse? later.indented = .error (.version 2) := by
  intro plan bare later
  have hplan : plan.toVersioned.Lossless Json.maxDepth := by
    simp [plan, Json.maxDepth, Json.FitsWord, toVersioned, planVersion, toJson, ScanSource.toJson,
      Schema.toJson, Column.toJson, DataType.toJson, Expr.compare, Expr.toJson, Datum.toJson,
      Json.ofOption]
  have hbare : bare.Lossless Json.maxDepth := by
    simp [bare, Json.maxDepth, Json.FitsWord]
  have hlater : later.Lossless Json.maxDepth := by
    simp [later, Json.maxDepth, Json.FitsWord]
  obtain ⟨-, hread, hrefused⟩ := decode_encodeWith Json.indented Json.parse?
  have hmissing := (hrefused _ bare (Json.parse?_indented hbare) rfl).2 rfl
  have hversion := (hrefused _ later (Json.parse?_indented hlater) rfl).1 2 (by decide +kernel)
    (by decide)
  exact ⟨Json.parse?_indented hplan, hread plan (Json.parse?_indented hplan), hmissing, hversion⟩

end Plan

end BlockQuery
