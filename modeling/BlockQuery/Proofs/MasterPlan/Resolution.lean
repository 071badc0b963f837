import BlockQuery.Proofs.Catalog.Entries
import BlockQuery.Proofs.MasterPlan.Lossless

/-!
# Queries that a catalog knows

With a catalog at hand a query is split only if the catalog knows its tables and aggregates.  Then
it is split as without a catalog, but with the row counts of the tables in its scans.  An aggregate
is looked up together with the column behind the keys in which its results stand.  A grouping whose
schema has no such column leaves it unknown.
-/

namespace BlockQuery

/-! ## What a catalog knows -/

namespace Catalog

/-- Whether an aggregate over the columns of a schema is in a catalog, for the type of its argument
and with results of the given type. -/
def KnowsAggregate (c : Catalog) (input : Schema) (a : Aggregate) (type : DataType) : Prop :=
  ∃ arguments f, a.argument.toList.mapM (Expr.typeIn input) = .ok arguments ∧
    c.getFunction a.function.name arguments = .ok f ∧ f.arguments = arguments ∧
    f.kind = .aggregate ∧ f.returns = type

/-- Whether a catalog knows the table that a node scans, or the aggregates of a grouping that have
a column behind its keys. -/
def Knows (c : Catalog) : Plan → Prop
  | .scan scan => ∀ name, scan.source = .table name → ∃ t, c.getTable name = .ok t ∧ t.name = name
  | .groupBy keys aggregates input schema =>
    ∀ i a column, aggregates[i]? = some a → schema[keys.length + i]? = some column →
      c.KnowsAggregate input.schema a column.type
  | _ => True

/-- A scan with the row count of its table, if it has no row hint. -/
def hinted (c : Catalog) (scan : Scan) : Scan :=
  match scan.source with
  | .table name =>
    { scan with rowHint := scan.rowHint <|> (c.getTable name).toOption.bind TableEntry.rowCount }
  | .block _ => scan

theorem hinted_table {c : Catalog} {name : String} {t : TableEntry} (h : c.getTable name = .ok t)
    (schema : Schema) (filter : Option Expr) (rowHint : Option UInt64) :
    c.hinted ⟨.table name, schema, filter, rowHint⟩ =
      ⟨.table name, schema, filter, rowHint <|> t.rowCount⟩ := by
  simp [hinted, h, Except.toOption]

@[simp] theorem source_hinted (c : Catalog) (scan : Scan) :
    (c.hinted scan).source = scan.source := by
  cases h : scan.source <;> simp [hinted, h]

@[simp] theorem schema_hinted (c : Catalog) (scan : Scan) :
    (c.hinted scan).schema = scan.schema := by
  cases h : scan.source <;> simp [hinted, h]

theorem arguments_of_getFunction {c : Catalog} {name : String} {arguments : List DataType}
    {f : FunctionEntry} (h : c.getFunction name arguments = .ok f) : f.arguments = arguments := by
  rw [getFunction] at h
  split at h
  next hfound =>
    cases h
    obtain ⟨overloads, -, hf⟩ := Option.bind_eq_some_iff.mp hfound
    simpa using List.find?_some hf
  next => cases h

end Catalog

namespace Partition

variable {c : Catalog} {input : Schema} {a : Aggregate} {column : Column}

/-- Once the type of its argument is known, it depends on the function that is found. -/
theorem checkAggregate_eq_ok_iff_of {arguments : List DataType}
    (harguments : a.argument.toList.mapM (Expr.typeIn input) = .ok arguments) :
    checkAggregate c input a column = .ok () ↔ ∃ f,
      c.getFunction a.function.name arguments = .ok f ∧ f.kind = .aggregate ∧
        f.returns = column.type := by
  have hsplit : a.argument = none ∧ arguments = [] ∨
      ∃ e t, a.argument = some e ∧ e.typeIn input = .ok t ∧ arguments = [t] := by
    cases hargument : a.argument with
    | none => simpa [hargument, pure, Except.pure] using harguments.symm
    | some e => cases htype : e.typeIn input <;> simp_all
  cases hfound : c.getFunction a.function.name arguments with
  | error fault =>
    rcases hsplit with ⟨hargument, rfl⟩ | ⟨e, t, hargument, htype, rfl⟩ <;>
      simp [checkAggregate, refuse, bind, Except.bind, pure, Except.pure, *]
  | ok f =>
    by_cases hf : f.kind = .aggregate ∧ f.returns = column.type <;>
      rcases hsplit with ⟨hargument, rfl⟩ | ⟨e, t, hargument, htype, rfl⟩ <;>
        simp [checkAggregate, refuse, bind, Except.bind, pure, Except.pure, *]

theorem checkAggregate_eq_ok_iff :
    checkAggregate c input a column = .ok () ↔ c.KnowsAggregate input a column.type := by
  cases harguments : a.argument.toList.mapM (Expr.typeIn input) with
  | error fault =>
    obtain ⟨e, hargument, htype⟩ : ∃ e, a.argument = some e ∧ e.typeIn input = .error fault := by
      cases hargument : a.argument with
      | none => simp [hargument, pure, Except.pure] at harguments
      | some e => cases htype : e.typeIn input <;> simp_all
    simp [checkAggregate, Catalog.KnowsAggregate, hargument, htype, refuse, bind, Except.bind]
  | ok arguments =>
    simp only [checkAggregate_eq_ok_iff_of harguments, Catalog.KnowsAggregate, harguments]
    constructor
    · rintro ⟨f, hfound, hf⟩
      exact ⟨arguments, f, rfl, hfound, Catalog.arguments_of_getFunction hfound, hf⟩
    · rintro ⟨_, f, heq, hfound, -, hf⟩
      cases heq
      exact ⟨f, hfound, hf⟩

theorem checkAggregates_eq_ok_iff {aggregates : List Aggregate} {columns : List Column} :
    checkAggregates c input aggregates columns = .ok () ↔
      ∀ (i : ℕ) a (column : Column), aggregates[i]? = some a → columns[i]? = some column →
        c.KnowsAggregate input a column.type := by
  induction aggregates generalizing columns with
  | nil => simp [checkAggregates]
  | cons a aggregates ih =>
    cases columns with
    | nil => simp [checkAggregates]
    | cons column columns =>
      rw [checkAggregates, Except.bind_eq_ok]
      simp only [@checkAggregate_eq_ok_iff c input a column, ih]
      constructor
      · rintro ⟨-, hfirst, hrest⟩ (_ | i) a' column' ha hcolumn
        · cases ha
          cases hcolumn
          exact hfirst
        · exact hrest i a' column' ha hcolumn
      · intro h
        exact ⟨(), h 0 a column rfl rfl, fun i => h (i + 1)⟩

/-- With a catalog a query is split as without, if the catalog knows what is in it. -/
theorem visit_some_eq_ok_iff {p : Plan} {s : State} {out : Piece × State} :
    visit (some c) p s = .ok out ↔
      (∀ n ∈ p.nodes, c.Knows n) ∧ visit none (p.mapScans c.hinted) s = .ok out := by
  induction p generalizing s out with
  | root child => simp [visit, Plan.mapScans, Plan.replaceScans, refuse]
  | createTable => simp [visit, Plan.mapScans, Plan.replaceScans, refuse]
  | scan scan =>
    obtain ⟨source, schema, condition, hint⟩ := scan
    cases source with
    | block seq => simp [visit, Plan.mapScans, Plan.replaceScans, Catalog.hinted, refuse]
    | table name =>
      cases hfound : c.getTable name with
      | error fault => simp [visit, hfound, Plan.nodes, Catalog.Knows, refuse]
      | ok t =>
        have hname := Catalog.name_of_table? (Catalog.getTable_eq_ok.mp hfound)
        simp [visit, hfound, Plan.mapScans, Plan.replaceScans, Plan.nodes, Catalog.Knows, hname,
          Catalog.hinted_table hfound]
  | filter predicate input ih | project targets input schema ih | sort specs input ih =>
    simp only [Plan.nodes, List.forall_mem_cons, Catalog.Knows, true_and]
    rw [visit]
    exact Except.bind_eq_ok_iff_and fun _ => ih
  | groupBy keys aggregates input schema ih =>
    have hchecks : c.Knows (.groupBy keys aggregates input schema) ↔
        checkAggregates c input.schema aggregates (schema.drop keys.length) = .ok () := by
      simp [checkAggregates_eq_ok_iff, Catalog.Knows]
    rw [Plan.nodes, List.forall_mem_cons, hchecks, visit, Except.bind_eq_ok]
    constructor
    · rintro ⟨_, hchecked, h⟩
      obtain ⟨hknown, h⟩ := (Except.bind_eq_ok_iff_and fun _ => ih).mp h
      exact ⟨⟨hchecked, hknown⟩, h⟩
    · rintro ⟨⟨hchecked, hknown⟩, h⟩
      refine ⟨(), hchecked, ?_⟩
      exact (Except.bind_eq_ok_iff_and fun _ => ih).mpr ⟨hknown, h⟩
  | join type condition left right schema ihl ihr =>
    have hjoin : (Plan.join type condition left right schema).mapScans c.hinted =
      .join type condition (left.mapScans c.hinted) (right.mapScans c.hinted) schema := rfl
    simp only [Plan.nodes, List.forall_mem_cons, List.forall_mem_append, Catalog.Knows, true_and]
    rw [hjoin, visit, visit, Plan.schema_mapScans c.schema_hinted,
      Plan.schema_mapScans c.schema_hinted]
    refine Except.bind_eq_ok_and_iff (fun _ => ihl) fun l => ?_
    exact Except.bind_eq_ok_iff_and fun _ => ihr

end Partition

namespace MasterPlan

variable {c : Catalog} {query : QueryId} {child : Plan} {p : MasterPlan}

/-- With a catalog a query becomes the plan that it becomes without one, but for the row counts of
its tables. -/
theorem ofPlan_some_eq_ok_iff : ofPlan (some c) query (.root child) = .ok p ↔
    (∀ n ∈ child.nodes, c.Knows n) ∧
      ofPlan none query (.root (child.mapScans c.hinted)) = .ok p := by
  have hscans : ∀ {top s}, Partition.visit none (child.mapScans c.hinted) ⟨query, 1, []⟩ =
      .ok (top, s) → child.scans ≠ [] ∧ (child.mapScans c.hinted).scans ≠ [] := by
    intro top s hvisit
    have hne := Plan.scans_ne_nil (Partition.exists_cut hvisit).1
    refine ⟨?_, hne⟩
    simpa [Plan.scans_mapScans] using hne
  constructor
  · intro h
    obtain ⟨top, s, hvisit, haccepted⟩ := exists_visit_of_ofPlan h
    obtain ⟨hknown, hvisit⟩ := Partition.visit_some_eq_ok_iff.mp hvisit
    exact ⟨hknown, (ofPlan_of_visit (hscans hvisit).2 hvisit).trans haccepted⟩
  · rintro ⟨hknown, h⟩
    obtain ⟨top, s, hvisit, haccepted⟩ := exists_visit_of_ofPlan h
    have hsome := Partition.visit_some_eq_ok_iff.mpr ⟨hknown, hvisit⟩
    exact (ofPlan_of_visit (hscans hvisit).1 hsome).trans haccepted

theorem exists_root_of_ofPlan {catalog : Option Catalog} {tree : Plan}
    (h : ofPlan catalog query tree = .ok p) : ∃ child, tree = .root child := by
  unfold ofPlan at h
  split at h
  · cases h
  · exact ⟨_, rfl⟩
  · cases h

theorem exists_ofPlan_none {catalog : Option Catalog} {tree : Plan}
    (h : ofPlan catalog query tree = .ok p) : ∃ child, ofPlan none query (.root child) = .ok p := by
  obtain ⟨child, rfl⟩ := exists_root_of_ofPlan h
  cases catalog with
  | none => exact ⟨child, h⟩
  | some c => exact ⟨child.mapScans c.hinted, (ofPlan_some_eq_ok_iff.mp h).2⟩

theorem exists_ofPlan_of_knows (query : QueryId) (hcount : child.blockCount < 2 ^ 32)
    (hnodes : ∀ n ∈ child.nodes, n.InQuery ∧ c.Knows n) :
    ∃ p, ofPlan (some c) query (.root child) = .ok p := by
  have hinQuery : ∀ n ∈ (child.mapScans c.hinted).nodes, n.InQuery :=
    (Plan.forall_inQuery_mapScans c.source_hinted child).mpr fun n hn => (hnodes n hn).1
  obtain ⟨p, hp⟩ := exists_ofPlan query
    (by rwa [Plan.blockCount_mapScans]) hinQuery
  exact ⟨p, ofPlan_some_eq_ok_iff.mpr ⟨fun n hn => (hnodes n hn).2, hp⟩⟩

/-- A plan is made of a query just if the catalog knows each of its tables, and each aggregate that
has a column behind the keys of its grouping.  Those of a grouping whose schema is long enough all
have one. -/
theorem ofPlan_knows_iff (c : Catalog) (query : QueryId) (tree : Plan) :
    (∀ p, ofPlan (some c) query tree = .ok p → ∃ child, tree = .root child ∧
      (∀ n ∈ child.nodes, n.InQuery ∧ c.Knows n) ∧
      ∀ keys aggregates input schema, .groupBy keys aggregates input schema ∈ child.nodes →
        keys.length + aggregates.length ≤ schema.length →
          ∀ i (a : Aggregate), aggregates[i]? = some a → ∃ column : Column,
            schema[keys.length + i]? = some column ∧
              c.KnowsAggregate input.schema a column.type) ∧
    ∀ child, tree = .root child → child.blockCount < 2 ^ 32 →
      (∀ n ∈ child.nodes, n.InQuery ∧ c.Knows n) → ∃ p, ofPlan (some c) query tree = .ok p := by
  constructor
  · intro p h
    obtain ⟨child, rfl⟩ := exists_root_of_ofPlan h
    obtain ⟨hknown, h⟩ := ofPlan_some_eq_ok_iff.mp h
    obtain ⟨top, s, hvisit, -⟩ := exists_visit_of_ofPlan h
    have hinQuery := (Plan.forall_inQuery_mapScans c.source_hinted child).mp
      (Partition.exists_cut hvisit).1
    refine ⟨child, rfl, fun n hn => ⟨hinQuery n hn, hknown n hn⟩, ?_⟩
    intro keys aggregates input schema hn hlength i a ha
    obtain ⟨hi, -⟩ := List.getElem?_eq_some_iff.mp ha
    have hcolumn : schema[keys.length + i]? = some schema[keys.length + i] :=
      List.getElem?_eq_getElem (by omega)
    exact ⟨_, hcolumn, hknown _ hn i a _ ha hcolumn⟩
  · rintro child rfl hcount hnodes
    exact exists_ofPlan_of_knows query hcount hnodes

/-! The salaries of each department, with and without a column for their sum. -/

namespace SalarySums

def columns : Schema := [⟨"emp.dept", .int4⟩, ⟨"emp.salary", .int8⟩]

def table : TableEntry :=
  ⟨"emp", [⟨"dept", .int4⟩, ⟨"salary", .int8⟩], .rowFile, [], none, "emp.rows"⟩

def total : Aggregate := ⟨.sum, some (.column "emp.salary"), "total"⟩

def grouping (schema : Schema) : Plan :=
  .groupBy ["emp.dept"] [total] (.scan ⟨.table "emp", columns, none, none⟩) schema

theorem forall_nodes_grouping {c : Catalog} {schema : Schema}
    (htable : c.getTable "emp" = .ok table)
    (htotal : ∀ column : Column, schema[1]? = some column →
      c.KnowsAggregate columns total column.type) :
    ∀ n ∈ (grouping schema).nodes, n.InQuery ∧ c.Knows n := by
  simp only [grouping, Plan.nodes, List.forall_mem_cons, Plan.InQuery, Catalog.Knows]
  refine ⟨⟨trivial, ?_⟩, ⟨⟨_, rfl⟩, ?_⟩, by simp⟩
  · rintro (_ | i) a column ha hcolumn
    · cases ha
      exact htotal column hcolumn
    · cases ha
  · rintro name hname
    cases hname
    exact ⟨table, htable, rfl⟩

end SalarySums

open SalarySums in
theorem ofPlan_knows_salaries :
    ∃ p, ofPlan (some ⟨[table], [], [("SUM", [⟨"sum", .aggregate, .int8, [.int8]⟩])]⟩)
        (QueryId.ofNat 1) (.root (grouping [⟨"emp.dept", .int4⟩, ⟨"total", .int8⟩])) = .ok p ∧
      Catalog.KnowsAggregate ⟨[table], [], [("SUM", [⟨"sum", .aggregate, .int8, [.int8]⟩])]⟩
        columns total .int8 := by
  let c : Catalog := ⟨[table], [], [("SUM", [⟨"sum", .aggregate, .int8, [.int8]⟩])]⟩
  have htotal : c.KnowsAggregate columns total .int8 :=
    ⟨[.int8], ⟨"sum", .aggregate, .int8, [.int8]⟩, rfl, by decide +kernel, rfl, rfl, rfl⟩
  obtain ⟨p, hp⟩ := (ofPlan_knows_iff c (QueryId.ofNat 1)
    (.root (grouping [⟨"emp.dept", .int4⟩, ⟨"total", .int8⟩]))).2 _ rfl (by decide)
    (forall_nodes_grouping rfl (by
      intro column hcolumn
      cases hcolumn
      exact htotal))
  exact ⟨p, hp, htotal⟩

open SalarySums in
/-- Without a column for the sum, a plan is made though no function is registered. -/
theorem ofPlan_of_unknown_sum :
    ∃ p, ofPlan (some ⟨[table], [], []⟩) (QueryId.ofNat 1)
        (.root (grouping [⟨"emp.dept", .int4⟩])) = .ok p ∧
      (Expr.column "emp.salary").typeIn columns = .ok .int8 ∧
      Catalog.getFunction ⟨[table], [], []⟩ "sum" [.int8] =
        .error (.noSuchFunction "sum(INT8)") := by
  have hcount : (grouping [⟨"emp.dept", .int4⟩]).blockCount < 2 ^ 32 := by decide
  obtain ⟨p, hp⟩ := exists_ofPlan_of_knows (c := ⟨[table], [], []⟩) (QueryId.ofNat 1) hcount
    (forall_nodes_grouping rfl (by
      intro column hcolumn
      cases hcolumn))
  exact ⟨p, hp, rfl, rfl⟩

end MasterPlan

end BlockQuery
