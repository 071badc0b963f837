import BlockQuery.Operator
import BlockQuery.Proofs.RowSource.GroupTypes
import BlockQuery.Proofs.RowSource.StoredRows

/-!
# Operators keep to their types

An operator is typed if its scans read rows of their schemas and its columns
have the types of its expressions.  Then each operator of the tree yields only
rows that conform to its schema, in any state that calls bring it to.
-/

namespace BlockQuery

/-- Expressions that keep to the types of some columns make rows of these columns. -/
theorem Row.Conforms.project {row values : Row} {schema columns : Schema}
    {targets : List BoundExpr} (h : row.Conforms schema)
    (htargets : List.Forall₂ (fun b c => b.Keeps schema c.type) targets columns)
    (hvalues : targets.mapM (BoundExpr.eval row) = .ok values) : values.Conforms columns := by
  induction htargets generalizing values with
  | nil =>
    cases hvalues
    exact List.Forall₂.nil
  | cons hfirst _ ih =>
    rw [List.mapM_cons] at hvalues
    obtain ⟨d, hd, hvalues⟩ := Except.bind_eq_ok.mp hvalues
    obtain ⟨rest, hrest, hvalues⟩ := Except.bind_eq_ok.mp hvalues
    cases hvalues
    exact List.Forall₂.cons (hfirst row h d hd) (ih hrest)

namespace Operator

/-- An operator and all those below it. -/
def nodes : Operator → List Operator
  | values schema rows => [values schema rows]
  | seqScan scan => [seqScan scan]
  | indexScan scan => [indexScan scan]
  | filter predicate child => filter predicate child :: child.nodes
  | project targets schema child => project targets schema child :: child.nodes
  | join type condition left right => join type condition left right :: (left.nodes ++ right.nodes)
  | sort order child => sort order child :: child.nodes
  | aggregate keys aggregates schema child =>
    aggregate keys aggregates schema child :: child.nodes

/-- Whether the scans of an operator read rows of their schemas on a disk, and its columns have the
types of the expressions that make them. -/
def Typed (disk : Disk) : Operator → Prop
  | values schema rows => ∀ row ∈ rows, row.Conforms schema
  | seqScan scan => scan.projection = none ∧
    ∀ f ∈ scan.fragments, ∀ row, disk.Stores f.path row → row.Conforms scan.schema
  | indexScan scan => ∃ content,
    RowReader.open? disk scan.data.path = .ok (.ofContent scan.data.path content) ∧
      content.length ≤ RowReader.maxPosition ∧
      ∀ offsets, scan.find = .ok offsets → ∀ offset ∈ offsets, ∃ row t,
        (RowReader.standing scan.data.path content offset).next = (.ok (some row), t) ∧
          row.Conforms scan.schema
  | filter _ child => child.Typed disk
  | project targets schema child =>
    List.Forall₂ (fun b c => b.Keeps child.schema c.type) targets schema ∧ child.Typed disk
  | join _ _ left right => left.Typed disk ∧ right.Typed disk
  | sort _ child => child.Typed disk
  | aggregate keys aggregates schema child =>
    (∃ keyColumns others, schema = keyColumns ++ others ∧ child.schema.At keys keyColumns ∧
      List.Forall₂ (fun a c => a.Tracks child.schema c.type a.fresh) aggregates others) ∧
      child.Typed disk

variable {disk : Disk}

/-- In no state a scan without a projection yields other rows than stored ones. -/
theorem yieldsOnly_seqScan {scan : SeqScan} (hprojection : scan.projection = none)
    (hstored : ∀ f ∈ scan.fragments, ∀ row, disk.Stores f.path row → row.Conforms scan.schema) :
    (RowSource.seqScan disk scan).YieldsOnly (·.Conforms scan.outputSchema) := by
  have hschema : scan.outputSchema = scan.schema := by rw [SeqScan.outputSchema, hprojection]
  have hdelivered : ∀ row passed, scan.deliver row = .ok (some passed) → passed = row := by
    intro row passed hdeliver
    rw [SeqScan.deliver, hprojection] at hdeliver
    split at hdeliver
    · cases hdeliver
    · dsimp only at hdeliver
      split at hdeliver
      · cases hdeliver
        rfl
      · split at hdeliver
        · cases hdeliver
        · cases hdeliver
          rfl
        · cases hdeliver
  apply RowSource.yieldsOnly_seqScan
  intro f hf row hrow passed hdeliver
  rw [hdelivered row passed hdeliver, hschema]
  exact hstored f hf row hrow

/-- The rows of a typed operator conform to its schema. -/
theorem Typed.yieldsOnly {op : Operator} (h : op.Typed disk) :
    (op.source disk).YieldsOnly (·.Conforms op.schema) := by
  induction op with
  | values schema rows => exact RowSource.YieldsOnly.values h
  | seqScan scan => exact yieldsOnly_seqScan h.1 h.2
  | indexScan scan =>
    obtain ⟨content, hopen, hsize, hfind⟩ := h
    exact RowSource.yieldsOnly_indexScan hopen hfind hsize
  | filter predicate child ih => exact (ih h).filter predicate
  | project targets schema child ih =>
    exact (ih h.2).project fun row values hrow hvalues => hrow.project h.1 hvalues
  | join type condition left right ihl ihr =>
    refine (ihl h.1).join (ihr h.2) (fun l r hl hr => hl.append hr) fun l hl => ?_
    exact hl.append (Row.conforms_nulls right.schema)
  | sort order child ih => exact (ih h).sort order
  | aggregate keys aggregates schema child ih =>
    obtain ⟨⟨keyColumns, others, rfl, hkeys, haggregates⟩, hchild⟩ := h
    exact (ih hchild).conforms_aggregate hkeys haggregates

theorem Typed.of_mem_nodes {op : Operator} (h : op.Typed disk) :
    ∀ node ∈ op.nodes, node.Typed disk := by
  induction op with
  | values | seqScan | indexScan => exact List.forall_mem_singleton.mpr h
  | filter predicate child ih | sort order child ih =>
    exact List.forall_mem_cons.mpr ⟨h, ih h⟩
  | project targets schema child ih | aggregate keys aggregates schema child ih =>
    exact List.forall_mem_cons.mpr ⟨h, ih h.2⟩
  | join type condition left right ihl ihr =>
    exact List.forall_mem_cons.mpr ⟨h, List.forall_mem_append.mpr ⟨ihl h.1, ihr h.2⟩⟩

/-! ## Operators on named columns -/

section Named

variable {child op : Operator}

theorem keeps_of_bound {e : Expr} {type : DataType} {b : BoundExpr}
    (htype : e.typeIn child.schema = .ok type) (hbound : child.bound e = .ok b) :
    b.Keeps child.schema type := Expr.keeps_of_typeIn htype (Except.mapError_eq_ok.mp hbound)

theorem Typed.filtering (h : child.Typed disk) {predicate : Expr}
    (hop : child.filtering predicate = .ok op) : op.Typed disk ∧ op.schema = child.schema := by
  obtain ⟨b, -, rfl⟩ := Except.map_eq_ok.mp hop
  exact ⟨h, rfl⟩

theorem Typed.projecting (h : child.Typed disk) {targets : List Target}
    (htypes : ∀ t ∈ targets, t.expr.typeIn child.schema = .ok t.type)
    (hop : child.projecting targets = .ok op) :
    op.Typed disk ∧ op.schema = targets.map fun t => ⟨t.name, t.type⟩ := by
  obtain ⟨exprs, hexprs, hop⟩ := Except.bind_eq_ok.mp hop
  cases hop
  refine ⟨⟨?_, h⟩, rfl⟩
  have hcolumns : targets.mapM (fun t => (.ok ⟨t.name, t.type⟩ : Except Unit Column)) =
      .ok (targets.map fun t => ⟨t.name, t.type⟩) := Except.mapM_of_forall fun _ _ => rfl
  apply Except.forall₂_of_mapM hexprs hcolumns
  intro t ht b c hb hc
  cases hc
  exact keeps_of_bound (htypes t ht) hb

theorem Typed.joining {left right : Operator} (hleft : left.Typed disk) (hright : right.Typed disk)
    {type : JoinType} {condition : Option Expr}
    (hop : Operator.joining type left right condition = .ok op) :
    op.Typed disk ∧ op.schema = left.schema ++ right.schema := by
  cases condition with
  | none =>
    cases hop
    exact ⟨⟨hleft, hright⟩, rfl⟩
  | some e =>
    rw [Operator.joining] at hop
    split at hop
    · cases hop
    · cases hop
      exact ⟨⟨hleft, hright⟩, rfl⟩

theorem Typed.sorting (h : child.Typed disk) {specs : List SortSpec}
    (hop : child.sorting specs = .ok op) : op.Typed disk ∧ op.schema = child.schema := by
  rw [Operator.sorting] at hop
  split at hop
  · cases hop
  · cases hop
    exact ⟨h, rfl⟩

/-- An aggregate starts with an accumulator of its type. -/
theorem tracks_of_boundAggregate {a : Aggregate} {b : BoundAggregate} {type : DataType}
    (hbound : child.boundAggregate a = .ok b) (htype : a.typeIn child.schema = .ok type) :
    b.Tracks child.schema type b.fresh := by
  obtain ⟨type', htype', hbound⟩ := Except.bind_eq_ok.mp hbound
  obtain ⟨argument, hargument, hbound⟩ := Except.bind_eq_ok.mp hbound
  cases hbound
  rw [Except.mapError_eq_ok, htype] at htype'
  cases htype'
  rw [Aggregate.typeIn] at htype
  cases harg : a.argument with
  | none =>
    rw [harg] at htype hargument
    cases hargument
    exact ⟨.text, Accumulator.makes_ofFunction_of_none htype, fun _ he => by cases he⟩
  | some e =>
    rw [harg] at htype hargument
    obtain ⟨t, ht, htype⟩ := Except.bind_eq_ok.mp htype
    obtain ⟨eb, heb, hargument⟩ := Except.map_eq_ok.mp hargument
    refine ⟨t, Accumulator.makes_ofFunction htype, fun e' he => ?_⟩
    rw [← hargument] at he
    cases he
    exact keeps_of_bound ht heb

theorem at_flatten {schema : Schema} {positions : List ℕ} {columns : List Schema}
    (h : List.Forall₂ (fun i cs => ∃ c, schema[i]? = some c ∧ cs = [c]) positions columns) :
    schema.At positions columns.flatten := by
  induction h with
  | nil => exact List.Forall₂.nil
  | cons hfirst _ ih =>
    obtain ⟨c, hc, rfl⟩ := hfirst
    exact List.Forall₂.cons hc ih

/-- A grouping with the columns that its builder works out keeps to their types. -/
theorem Typed.grouping (h : child.Typed disk) {keys : List String} {aggregates : List Aggregate}
    {schema : Schema} (hschema : Plan.groupSchema child.schema keys aggregates = .ok schema)
    (hop : child.grouping keys aggregates schema = .ok op) :
    op.Typed disk ∧ op.schema = schema := by
  obtain ⟨columns, hcolumns, hschema⟩ := Except.bind_eq_ok.mp hschema
  obtain ⟨others, hothers, hschema⟩ := Except.bind_eq_ok.mp hschema
  cases hschema
  obtain ⟨positions, hpositions, hop⟩ := Except.bind_eq_ok.mp hop
  obtain ⟨accumulated, haccumulated, hop⟩ := Except.bind_eq_ok.mp hop
  obtain ⟨-, hop⟩ := Except.guard_eq_ok.mp hop
  cases hop
  refine ⟨⟨⟨columns.flatten, others, rfl, at_flatten ?_, ?_⟩, h⟩, rfl⟩
  · apply Except.forall₂_of_mapM hpositions hcolumns
    intro key _ i cs hi hcs
    have hfind := Except.mapError_eq_ok.mp hi
    obtain ⟨c, hc, -⟩ := Schema.exists_column_of_find hfind
    rw [hfind] at hcs
    dsimp only at hcs
    rw [hc] at hcs
    cases hcs
    exact ⟨c, hc, rfl⟩
  · apply Except.forall₂_of_mapM haccumulated hothers
    intro a _ b c hb hc
    obtain ⟨type, htype, hc⟩ := Except.bind_eq_ok.mp hc
    cases hc
    exact tracks_of_boundAggregate hb htype

end Named

end Operator

end BlockQuery
