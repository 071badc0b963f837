import BlockQuery.Operator.OfPlan
import BlockQuery.Proofs.RowSource.Files
import BlockQuery.Proofs.RowSource.Join

/-!
# The relation of a plan

A plan that can be executed stands for a relation: a schema and a list of rows.
The relation of a node depends on its inputs only through their relations,
whichever operators and files these come from.
-/

namespace BlockQuery

/-- Rows under a schema. -/
structure Relation where
  schema : Schema
  rows : List Row
deriving DecidableEq

namespace Relation

/-- Whether all rows have a value for every column. -/
def Wide (r : Relation) : Prop := ∀ row ∈ r.rows, row.length = r.schema.length

instance (r : Relation) : Decidable r.Wide :=
  inferInstanceAs (Decidable (∀ row ∈ r.rows, row.length = r.schema.length))

@[simp] theorem wide_nil (schema : Schema) : Wide ⟨schema, []⟩ := fun _ h => by cases h

@[simp] theorem wide_cons (schema : Schema) (row : Row) (rows : List Row) :
    Wide ⟨schema, row :: rows⟩ ↔ row.length = schema.length ∧ Wide ⟨schema, rows⟩ :=
  List.forall_mem_cons

def select? (r : Relation) (predicate : Expr) : Option Relation :=
  (predicate.bind r.schema).toOption.bind fun b =>
    (RowSource.keep b.keeps r.rows).map (mk r.schema)

def project? (r : Relation) (targets : List Target) : Option Relation :=
  ((targets.mapM fun t : Target => (t.expr.bind r.schema).mapError ExecError.ofBind).toOption).bind
    fun exprs => (RowSource.projected exprs r.rows).map
      (mk (targets.map fun t => ⟨t.name, t.type⟩))

def join? (type : JoinType) (condition : Option Expr) (l r : Relation) : Option Relation :=
  ((condition.mapM (Expr.bind (l.schema ++ r.schema))).toOption).bind fun b =>
    (RowSource.joined type b r.schema.length r.rows l.rows).map (mk (l.schema ++ r.schema))

def sort? (r : Relation) (specs : List SortSpec) : Option Relation :=
  (RowOrder.ofSpecs r.schema specs).toOption.map fun order => ⟨r.schema, order.sort r.rows⟩

/-- The positions of the keys and the aggregates of a grouping in a schema. -/
def groupParts (schema : Schema) (keys : List String) (aggregates : List Aggregate)
    (out : Schema) : Except ExecError (List ℕ × List BoundAggregate) := do
  let positions ← keys.mapM fun key =>
    (schema.find key).mapError fun e => .invalidPlan (.lookup e)
  let accumulated ← aggregates.mapM (Operator.values schema []).boundAggregate
  if out.length ≠ keys.length + aggregates.length then
    throw (.invalidPlan (.aggregateShape out keys.length aggregates.length))
  return (positions, accumulated)

def group? (r : Relation) (keys : List String) (aggregates : List Aggregate) (out : Schema) :
    Option Relation :=
  (groupParts r.schema keys aggregates out).toOption.bind fun parts =>
    (RowSource.groupsOf parts.1 parts.2 r.rows).map (Relation.mk out)

/-- Stored rows under the schema of a scan, with the predicate of the scan. -/
def stored? (schema : Schema) (predicate : Option Expr) (rows : List Row) : Option Relation :=
  if Wide ⟨schema, rows⟩ then
    match predicate with
    | none => some ⟨schema, rows⟩
    | some e => select? ⟨schema, rows⟩ e
  else none

end Relation

/-! ## Operators -/

namespace Operator

/-- The relation that an operator yields on a disk, unless there is an error. -/
def relation? (disk : Disk) (op : Operator) : Option Relation :=
  (op.source disk).yield?.map (Relation.mk op.schema)

variable (disk : Disk) (op : Operator)

theorem relation?_filtering (predicate : Expr) :
    (op.filtering predicate).toOption.bind (relation? disk) =
      (op.relation? disk).bind (·.select? predicate) := by
  rw [filtering, bound]
  cases hb : predicate.bind op.schema with
  | error e =>
    cases h : (op.source disk).yield? <;>
      simp [Except.mapError, Except.map, Except.toOption, relation?, Relation.select?, hb, h]
  | ok b =>
    change (((op.source disk).filter b).yield?).map (Relation.mk op.schema) = _
    rw [RowSource.yield?_filter]
    cases h : (op.source disk).yield? <;>
      simp [relation?, Relation.select?, hb, h, Except.toOption]

theorem relation?_projecting (targets : List Target) :
    (op.projecting targets).toOption.bind (relation? disk) =
      (op.relation? disk).bind (·.project? targets) := by
  have hbound : ∀ t : Target, op.bound t.expr =
      (t.expr.bind op.schema).mapError ExecError.ofBind := fun _ => rfl
  rw [projecting]
  simp only [hbound]
  cases hexprs : targets.mapM fun t : Target => (t.expr.bind op.schema).mapError ExecError.ofBind with
  | error e =>
    cases h : (op.source disk).yield? <;>
      simp [relation?, Relation.project?, hexprs, h, Except.toOption, bind, Except.bind]
  | ok exprs =>
    change (((op.source disk).project exprs).yield?).map
      (Relation.mk (targets.map fun t => ⟨t.name, t.type⟩)) = _
    rw [RowSource.yield?_project]
    cases h : (op.source disk).yield? <;>
      simp [relation?, Relation.project?, hexprs, h, Except.toOption]

theorem relation?_sorting (specs : List SortSpec) :
    (op.sorting specs).toOption.bind (relation? disk) =
      (op.relation? disk).bind (·.sort? specs) := by
  rw [sorting]
  cases horder : RowOrder.ofSpecs op.schema specs with
  | error e =>
    cases h : (op.source disk).yield? <;>
      simp [relation?, Relation.sort?, horder, h, Except.toOption]
  | ok order =>
    change (((op.source disk).sort order).yield?).map (Relation.mk op.schema) = _
    rw [RowSource.yield?_sort]
    cases h : (op.source disk).yield? <;>
      simp [relation?, Relation.sort?, horder, h, Except.toOption]

theorem grouping_eq (keys : List String) (aggregates : List Aggregate) (out : Schema) :
    op.grouping keys aggregates out =
      (Relation.groupParts op.schema keys aggregates out).map fun parts =>
        aggregate parts.1 parts.2 out op := by
  rw [grouping, Relation.groupParts]
  have hbound : op.boundAggregate = (values op.schema []).boundAggregate := rfl
  rw [hbound]
  cases keys.mapM fun key =>
      (op.schema.find key).mapError fun e => ExecError.invalidPlan (.lookup e) with
  | error e => rfl
  | ok positions =>
    cases aggregates.mapM (values op.schema []).boundAggregate with
    | error e => rfl
    | ok accumulated =>
      by_cases hlen : out.length ≠ keys.length + aggregates.length
      · simp [bind, Except.bind, hlen, throw, throwThe, MonadExceptOf.throw, Except.map]
      · simp [bind, Except.bind, hlen, pure, Except.pure, Except.map]

theorem relation?_grouping (keys : List String) (aggregates : List Aggregate) (out : Schema) :
    (op.grouping keys aggregates out).toOption.bind (relation? disk) =
      (op.relation? disk).bind (·.group? keys aggregates out) := by
  rw [grouping_eq]
  cases hparts : Relation.groupParts op.schema keys aggregates out with
  | error e =>
    cases h : (op.source disk).yield? <;>
      simp [relation?, Relation.group?, hparts, h, Except.toOption, Except.map]
  | ok parts =>
    change ((RowSource.aggregate parts.1 parts.2 (op.source disk)).yield?).map (Relation.mk out) = _
    rw [RowSource.yield?_aggregate]
    cases h : (op.source disk).yield? <;>
      simp [relation?, Relation.group?, hparts, h, Except.toOption]

theorem relation?_joining (type : JoinType) (left right : Operator) (condition : Option Expr) :
    (joining type left right condition).toOption.bind (relation? disk) =
      (left.relation? disk).bind fun l => (right.relation? disk).bind fun r =>
        Relation.join? type condition l r := by
  have hjoin : ∀ b, (join type b left right).relation? disk =
      ((left.source disk).yield?.bind fun ls => (right.source disk).yield?.bind fun rs =>
        RowSource.joined type b right.schema.length rs ls).map
          (Relation.mk (left.schema ++ right.schema)) := by
    intro b
    rw [← RowSource.yield?_join]
    rfl
  cases condition with
  | none =>
    change (join type none left right).relation? disk = _
    rw [hjoin]
    cases hl : (left.source disk).yield? <;> cases hr : (right.source disk).yield? <;>
      simp [relation?, Relation.join?, hl, hr, Except.toOption, pure, Except.pure]
  | some e =>
    rw [joining]
    cases hb : e.bind (left.schema ++ right.schema) with
    | error fault =>
      cases hl : (left.source disk).yield? <;> cases hr : (right.source disk).yield? <;>
        simp [relation?, Relation.join?, hl, hr, hb, Except.toOption, Except.map, Functor.map]
    | ok b =>
      change (join type (some b) left right).relation? disk = _
      rw [hjoin]
      cases hl : (left.source disk).yield? <;> cases hr : (right.source disk).yield? <;>
        simp [relation?, Relation.join?, hl, hr, hb, Except.toOption, Except.map, Functor.map]

/-! ## Scans -/

theorem delivered_ofFragments (schema : Schema) (fragments : List Fragment) (rows : List Row) :
    (SeqScan.ofFragments schema fragments).delivered rows =
      if Relation.Wide ⟨schema, rows⟩ then some rows else none := by
  induction rows with
  | nil => rfl
  | cons row rows ih =>
    rw [SeqScan.delivered, ih]
    by_cases hrow : row.length = schema.length <;> by_cases hrows : Relation.Wide ⟨schema, rows⟩ <;>
      simp [SeqScan.deliver, SeqScan.ofFragments, hrow, hrows]

theorem delivered_withCondition (schema : Schema) (fragments : List Fragment) (b : BoundExpr)
    (rows : List Row) :
    SeqScan.delivered ⟨schema, fragments, some b, none⟩ rows =
      if Relation.Wide ⟨schema, rows⟩ then RowSource.keep b.keeps rows else none := by
  induction rows with
  | nil => rfl
  | cons row rows ih =>
    rw [SeqScan.delivered, ih, RowSource.keep]
    by_cases hrow : row.length = schema.length <;> by_cases hrows : Relation.Wide ⟨schema, rows⟩ <;>
      rcases hkeeps : b.keeps row with e | _ | _ <;>
        simp [SeqScan.deliver, hrow, hrows, hkeeps]

theorem relation?_scanOfFiles (schema : Schema) (fragments : List Fragment)
    (predicate : Option Expr) :
    (scanOfFiles schema fragments predicate).toOption.bind (relation? disk) =
      (RowSource.filesRows? disk fragments).bind (Relation.stored? schema predicate) := by
  cases predicate with
  | none =>
    change ((RowSource.seqScan disk (.ofFragments schema fragments)).yield?).map
      (Relation.mk schema) = _
    rw [RowSource.yield?_seqScan]
    cases h : RowSource.filesRows? disk fragments with
    | none => simp [SeqScan.ofFragments, h]
    | some rows =>
      simp only [SeqScan.ofFragments, h, Option.bind_some]
      rw [← SeqScan.ofFragments, delivered_ofFragments, Relation.stored?]
      split <;> rfl
  | some e =>
    rw [scanOfFiles, SeqScan.withCondition, SeqScan.ofFragments]
    cases hb : e.bind schema with
    | error fault =>
      cases h : RowSource.filesRows? disk fragments <;>
        simp [Except.map, Except.toOption, Relation.stored?, Relation.select?, hb]
    | ok b =>
      change ((RowSource.seqScan disk ⟨schema, fragments, some b, none⟩).yield?).map
        (Relation.mk schema) = _
      rw [RowSource.yield?_seqScan]
      cases h : RowSource.filesRows? disk fragments with
      | none => simp
      | some rows =>
        simp only [Option.bind_some]
        rw [delivered_withCondition, Relation.stored?, Relation.select?, hb]
        split <;> rfl

end Operator

theorem IndexChoice.mem_of_best? {choices : List IndexChoice} {c : IndexChoice}
    (h : best? choices = some c) : c ∈ choices := by
  have hfold : ∀ (cs : List IndexChoice) (b : IndexChoice),
      cs.foldl (fun best c => if best.notWorse c then best else c) b ∈ b :: cs := by
    intro cs
    induction cs with
    | nil => exact fun b => List.mem_cons_self
    | cons d cs ih =>
      intro b
      rw [List.foldl_cons]
      split
      next =>
        rcases List.mem_cons.mp (ih b) with heq | hmem
        · rw [heq]
          exact List.mem_cons_self
        · exact List.mem_cons_of_mem _ (List.mem_cons_of_mem _ hmem)
      next => exact List.mem_cons_of_mem _ (ih d)
  cases choices with
  | nil => cases h
  | cons b cs =>
    cases h
    exact hfold cs b

theorem TaskContext.mem_filesOf_of_mem_indexesOn {ctx : TaskContext} {table : String}
    {b : IndexBinding} (h : b ∈ ctx.indexesOn table) : b.data ∈ ctx.filesOf table := by
  unfold indexesOn at h
  split at h
  next fragment hfiles =>
    have hdata : b.data = fragment := by
      have := (List.mem_filter.mp h).2
      simp only [Bool.and_eq_true, beq_iff_eq] at this
      exact this.2
    rw [hfiles, hdata]
    exact List.mem_singleton_self _
  next => cases h

/-- The files of a table scanned without an index. -/
def Operator.filesOfTable (ctx : TaskContext) (table : String) (schema : Schema)
    (predicate : Option Expr) : Except ExecError Operator :=
  match ctx.filesOf table with
  | [] => .error (.invalidPlan (.noFragments table))
  | fragments => scanOfFiles schema fragments predicate

theorem Operator.scanOfTable_eq (ctx : TaskContext) (table : String) (schema : Schema)
    (predicate : Option Expr) :
    scanOfTable ctx table schema predicate =
      match predicate.bind fun e =>
        (IndexChoice.ofPredicate? ctx table schema e).map fun c => (c, e) with
      | some (c, e) => (indexScan (c.scan schema)).filtering e
      | none => filesOfTable ctx table schema predicate := by
  have hfiles : (do scanOfFiles schema (← ctx.getTable table) predicate) =
      filesOfTable ctx table schema predicate := by
    rw [filesOfTable, TaskContext.getTable]
    cases ctx.filesOf table <;> rfl
  rw [scanOfTable]
  cases predicate.bind fun e =>
      (IndexChoice.ofPredicate? ctx table schema e).map fun c => (c, e) with
  | none => exact hfiles
  | some found => rfl

/-- Whether two contexts name the same tables and indexes, with the same files on two disks. -/
structure SameTables (ctx : TaskContext) (disk : Disk) (ctx' : TaskContext) (disk' : Disk) :
    Prop where
  tables : ctx'.tables = ctx.tables
  indexes : ctx'.indexes = ctx.indexes
  reader? : ∀ t ∈ ctx.tables, disk'.reader? t.2.path = disk.reader? t.2.path

namespace SameTables

variable {ctx ctx' : TaskContext} {disk disk' : Disk}

theorem filesOf (h : SameTables ctx disk ctx' disk') (table : String) :
    ctx'.filesOf table = ctx.filesOf table := by
  rw [TaskContext.filesOf, TaskContext.filesOf, h.tables]

theorem indexesOn (h : SameTables ctx disk ctx' disk') (table : String) :
    ctx'.indexesOn table = ctx.indexesOn table := by
  rw [TaskContext.indexesOn, TaskContext.indexesOn, h.filesOf, h.indexes]

theorem reader?_of_mem_filesOf (h : SameTables ctx disk ctx' disk') {table : String}
    {fragment : Fragment} (hmem : fragment ∈ ctx.filesOf table) :
    disk'.reader? fragment.path = disk.reader? fragment.path := by
  obtain ⟨t, ht, rfl⟩ := List.mem_map.mp hmem
  exact h.reader? t (List.mem_of_mem_filter ht)

theorem filesRows?_congr {fragments : List Fragment}
    (h : ∀ f ∈ fragments, disk'.reader? f.path = disk.reader? f.path) :
    RowSource.filesRows? disk' fragments = RowSource.filesRows? disk fragments := by
  induction fragments with
  | nil => rfl
  | cons fragment rest ih =>
    rw [RowSource.filesRows?, RowSource.filesRows?, Disk.rows?, Disk.rows?,
      h fragment List.mem_cons_self, ih fun f hf => h f (List.mem_cons_of_mem _ hf)]

/-- The index that is chosen lists the rows of a file of the table. -/
theorem data_mem_of_choice {table : String} {schema : Schema} {predicate : Expr}
    {c : IndexChoice} (h : IndexChoice.ofPredicate? ctx table schema predicate = some c) :
    c.binding.data ∈ ctx.filesOf table := by
  have hmem := IndexChoice.mem_of_best? h
  obtain ⟨b, hb, hc⟩ := List.mem_filterMap.mp hmem
  obtain ⟨l, _, rfl⟩ := Option.map_eq_some_iff.mp hc
  exact TaskContext.mem_filesOf_of_mem_indexesOn hb

theorem ofPredicate? (h : SameTables ctx disk ctx' disk') (table : String) (schema : Schema)
    (predicate : Expr) :
    IndexChoice.ofPredicate? ctx' table schema predicate =
      IndexChoice.ofPredicate? ctx table schema predicate := by
  rw [IndexChoice.ofPredicate?, IndexChoice.ofPredicate?, h.indexesOn]

/-- Over the same tables the files of a table hold the same rows. -/
theorem relation?_filesOfTable (h : SameTables ctx disk ctx' disk') (table : String)
    (schema : Schema) (predicate : Option Expr) :
    (Operator.filesOfTable ctx' table schema predicate).toOption.bind
        (Operator.relation? disk') =
      (Operator.filesOfTable ctx table schema predicate).toOption.bind
        (Operator.relation? disk) := by
  have hall : ∀ f ∈ ctx.filesOf table, disk'.reader? f.path = disk.reader? f.path :=
    fun _ => h.reader?_of_mem_filesOf
  rw [Operator.filesOfTable, Operator.filesOfTable, h.filesOf]
  cases hfragments : ctx.filesOf table with
  | nil => simp only [Except.toOption, Option.bind_none]
  | cons fragment rest =>
    rw [hfragments] at hall
    dsimp only
    rw [Operator.relation?_scanOfFiles, Operator.relation?_scanOfFiles, filesRows?_congr hall]

/-- Over the same tables a scan of a table stands for the same relation. -/
theorem relation?_scanOfTable (h : SameTables ctx disk ctx' disk') (table : String)
    (schema : Schema) (predicate : Option Expr) :
    (Operator.scanOfTable ctx' table schema predicate).toOption.bind (Operator.relation? disk') =
      (Operator.scanOfTable ctx table schema predicate).toOption.bind
        (Operator.relation? disk) := by
  rw [Operator.scanOfTable_eq, Operator.scanOfTable_eq]
  have hchoice : ∀ e, IndexChoice.ofPredicate? ctx' table schema e =
      IndexChoice.ofPredicate? ctx table schema e := h.ofPredicate? table schema
  simp only [hchoice]
  cases hc : predicate.bind fun e =>
      (IndexChoice.ofPredicate? ctx table schema e).map fun c => (c, e) with
  | none => exact h.relation?_filesOfTable table schema predicate
  | some found =>
    obtain ⟨c, e⟩ := found
    obtain ⟨e', _, hmap⟩ := Option.bind_eq_some_iff.mp hc
    obtain ⟨c', hc', heq⟩ := Option.map_eq_some_iff.mp hmap
    cases heq
    have hdata : disk'.reader? (c.scan schema).data.path =
        disk.reader? (c.scan schema).data.path :=
      h.reader?_of_mem_filesOf (data_mem_of_choice hc')
    have hindex : (Operator.indexScan (c.scan schema)).relation? disk' =
        (Operator.indexScan (c.scan schema)).relation? disk := by
      simp only [Operator.relation?, Operator.source, RowSource.yield?_indexScan, hdata]
    dsimp only
    rw [Operator.relation?_filtering, Operator.relation?_filtering, hindex]

end SameTables

namespace Plan

/-- The rows of a plan, or why there are none. -/
def answer (ctx : TaskContext) (disk : Disk) (p : Plan) : Except ExecError (List Row) :=
  (Operator.ofPlan ctx p).bind fun op => ((op.source disk).rows false).1

/-- The relation that a plan stands for in a context, unless it cannot be executed. -/
def relation? (ctx : TaskContext) (disk : Disk) (p : Plan) : Option Relation :=
  (Operator.ofPlan ctx p).toOption.bind (Operator.relation? disk)

variable (ctx : TaskContext) (disk : Disk)

theorem answer_ok_iff {p : Plan} {rows : List Row} :
    p.answer ctx disk = .ok rows ↔ ∃ schema, p.relation? ctx disk = some ⟨schema, rows⟩ := by
  unfold answer relation?
  cases Operator.ofPlan ctx p with
  | error e =>
    constructor
    · intro h
      cases h
    · rintro ⟨_, h⟩
      cases h
  | ok op =>
    change ((op.source disk).rows false).1 = .ok rows ↔
      ∃ schema, op.relation? disk = some ⟨schema, rows⟩
    rw [RowSource.rows_ok_iff, Operator.relation?]
    simp

theorem exists_answer_iff {p : Plan} :
    (∃ rows, p.answer ctx disk = .ok rows) ↔ ∃ r, p.relation? ctx disk = some r := by
  simp only [answer_ok_iff]
  constructor
  · rintro ⟨rows, schema, h⟩
    exact ⟨_, h⟩
  · rintro ⟨r, h⟩
    exact ⟨r.rows, r.schema, h⟩

theorem answer_root (child : Plan) : (root child).answer ctx disk = child.answer ctx disk := rfl

theorem bind_toOption {α β γ : Type} (x : Except ExecError α) (f : α → Except ExecError β)
    (g : β → Option γ) :
    (x >>= f).toOption.bind g = x.toOption.bind fun a => (f a).toOption.bind g := by
  cases x <;> rfl

theorem relation?_root (child : Plan) :
    (root child).relation? ctx disk = child.relation? ctx disk := rfl

theorem relation?_scan (s : Scan) :
    (scan s).relation? ctx disk =
      (Operator.ofScan ctx s none).toOption.bind (Operator.relation? disk) := rfl

/-- A filter directly over a scan joins it. -/
theorem relation?_filter_scan (predicate : Expr) (s : Scan) :
    (filter predicate (scan s)).relation? ctx disk =
      (Operator.ofScan ctx s (some predicate)).toOption.bind (Operator.relation? disk) := rfl

theorem relation?_filter (predicate : Expr) {input : Plan} (h : ∀ s, input ≠ scan s) :
    (filter predicate input).relation? ctx disk =
      (input.relation? ctx disk).bind (·.select? predicate) := by
  rw [relation?, Operator.ofPlan, bind_toOption]
  · simp only [Operator.relation?_filtering]
    rw [relation?, Option.bind_assoc]
  · exact h

theorem relation?_project (targets : List Target) (input : Plan) (schema : Schema) :
    (project targets input schema).relation? ctx disk =
      (input.relation? ctx disk).bind (·.project? targets) := by
  rw [relation?, Operator.ofPlan, bind_toOption]
  simp only [Operator.relation?_projecting]
  rw [relation?, Option.bind_assoc]

theorem relation?_sort (specs : List SortSpec) (input : Plan) :
    (sort specs input).relation? ctx disk = (input.relation? ctx disk).bind (·.sort? specs) := by
  rw [relation?, Operator.ofPlan, bind_toOption]
  simp only [Operator.relation?_sorting]
  rw [relation?, Option.bind_assoc]

theorem relation?_groupBy (keys : List String) (aggregates : List Aggregate) (input : Plan)
    (schema : Schema) :
    (groupBy keys aggregates input schema).relation? ctx disk =
      (input.relation? ctx disk).bind (·.group? keys aggregates schema) := by
  rw [relation?, Operator.ofPlan, bind_toOption]
  simp only [Operator.relation?_grouping]
  rw [relation?, Option.bind_assoc]

theorem relation?_join (type : JoinType) (condition : Option Expr) (left right : Plan)
    (schema : Schema) :
    (join type condition left right schema).relation? ctx disk =
      (left.relation? ctx disk).bind fun l => (right.relation? ctx disk).bind fun r =>
        Relation.join? type condition l r := by
  rw [relation?, Operator.ofPlan, bind_toOption]
  simp only [bind_toOption, Operator.relation?_joining]
  unfold relation?
  cases (Operator.ofPlan ctx left).toOption with
  | none => rfl
  | some l =>
    cases (Operator.ofPlan ctx right).toOption with
    | none => simp
    | some r => rfl

theorem relation?_createTable (table : String) (schema : Schema) (store : StoreType)
    (path : Option String) : (createTable table schema store path).relation? ctx disk = none := rfl

end Plan

/-! ## Outputs of blocks -/

/-- A scan of the output of a block, perhaps with a filter. -/
theorem Operator.relation?_ofScan_block (ctx : TaskContext) (disk : Disk) {seq : UInt32}
    {fragment : Fragment} (hout : ctx.outputFragments seq = [fragment]) (schema : Schema)
    (hint : Option UInt64) (outer : Option Expr) :
    (ofScan ctx ⟨.block seq, schema, none, hint⟩ outer).toOption.bind (relation? disk) =
      (disk.rows? fragment.path).bind (Relation.stored? schema outer) := by
  have houter : Expr.conjunction? (outer.toList) = outer := by
    cases outer <;> rfl
  rw [ofScan]
  dsimp only
  rw [TaskContext.getOutput, hout]
  change (scanOfFiles schema [fragment] (Expr.conjunction? outer.toList)).toOption.bind _ = _
  rw [houter, relation?_scanOfFiles, RowSource.filesRows?, RowSource.filesRows?]
  cases disk.rows? fragment.path <;> simp

/-- Whether the outputs of a block hold the same rows in two contexts on their disks, or are missing
in both. -/
structure SameOutput (ctx : TaskContext) (disk : Disk) (ctx' : TaskContext) (disk' : Disk)
    (seq : UInt32) : Prop where
  missing_iff : ctx'.outputFragments seq = [] ↔ ctx.outputFragments seq = []
  rows : RowSource.filesRows? disk' (ctx'.outputFragments seq) =
    RowSource.filesRows? disk (ctx.outputFragments seq)

/-- The rows of a block stand for themselves in every scan of its output. -/
theorem SameOutput.relation?_scan {ctx ctx' : TaskContext} {disk disk' : Disk} {seq : UInt32}
    (h : SameOutput ctx disk ctx' disk' seq) (schema : Schema) (predicate : Option Expr) :
    (do Operator.scanOfFiles schema (← ctx'.getOutput seq) predicate).toOption.bind
        (Operator.relation? disk') =
      (do Operator.scanOfFiles schema (← ctx.getOutput seq) predicate).toOption.bind
        (Operator.relation? disk) := by
  have hfiles : ∀ (c : TaskContext) (d : Disk),
      (do Operator.scanOfFiles schema (← c.getOutput seq) predicate).toOption.bind
          (Operator.relation? d) =
        if c.outputFragments seq = [] then none
        else (RowSource.filesRows? d (c.outputFragments seq)).bind
          (Relation.stored? schema predicate) := by
    intro c d
    rw [Plan.bind_toOption, TaskContext.getOutput]
    cases hfragments : c.outputFragments seq with
    | nil => rfl
    | cons fragment rest =>
      rw [if_neg (List.cons_ne_nil fragment rest)]
      exact Operator.relation?_scanOfFiles d schema (fragment :: rest) predicate
  rw [hfiles, hfiles, h.rows]
  exact if_congr h.missing_iff rfl rfl

/-- Over the same tables, and outputs with the same rows, a plan stands for the same relation. -/
theorem SameTables.relation?_congr {ctx ctx' : TaskContext} {disk disk' : Disk}
    (h : SameTables ctx disk ctx' disk') {p : Plan}
    (hout : ∀ seq ∈ p.scannedBlocks, SameOutput ctx disk ctx' disk' seq) :
    p.relation? ctx' disk' = p.relation? ctx disk := by
  have hscan : ∀ (s : Scan) (outer : Option Expr),
      (∀ seq ∈ (Plan.scan s).scannedBlocks, SameOutput ctx disk ctx' disk' seq) →
      (Operator.ofScan ctx' s outer).toOption.bind (Operator.relation? disk') =
        (Operator.ofScan ctx s outer).toOption.bind (Operator.relation? disk) := by
    rintro ⟨source, schema, condition, hint⟩ outer hout
    cases source with
    | table name => exact h.relation?_scanOfTable name schema _
    | block seq => exact (hout seq (List.mem_singleton_self seq)).relation?_scan schema _
  induction p with
  | root child ih => rw [Plan.relation?_root, Plan.relation?_root, ih hout]
  | createTable => rw [Plan.relation?_createTable, Plan.relation?_createTable]
  | scan s =>
    rw [Plan.relation?_scan, Plan.relation?_scan]
    exact hscan s none hout
  | filter predicate input ih =>
    by_cases hinput : ∃ s, input = .scan s
    · obtain ⟨s, rfl⟩ := hinput
      rw [Plan.relation?_filter_scan, Plan.relation?_filter_scan]
      exact hscan s _ hout
    · rw [Plan.relation?_filter _ _ _ fun s hs => hinput ⟨s, hs⟩,
        Plan.relation?_filter _ _ _ fun s hs => hinput ⟨s, hs⟩, ih hout]
  | project targets input schema ih => rw [Plan.relation?_project, Plan.relation?_project, ih hout]
  | join type condition left right schema ihl ihr =>
    have hscanned : (Plan.join type condition left right schema).scannedBlocks =
        left.scannedBlocks ++ right.scannedBlocks := List.filterMap_append
    rw [hscanned, List.forall_mem_append] at hout
    rw [Plan.relation?_join, Plan.relation?_join, ihl hout.1, ihr hout.2]
  | sort specs input ih => rw [Plan.relation?_sort, Plan.relation?_sort, ih hout]
  | groupBy keys aggregates input schema ih =>
    rw [Plan.relation?_groupBy, Plan.relation?_groupBy, ih hout]

/-- Over the same tables and without outputs a plan stands for the same relation. -/
theorem SameTables.relation?_eq {ctx ctx' : TaskContext} {disk disk' : Disk}
    (h : SameTables ctx disk ctx' disk') (hout : ctx.outputs = []) (hout' : ctx'.outputs = [])
    (p : Plan) : p.relation? ctx' disk' = p.relation? ctx disk := by
  apply h.relation?_congr
  intro seq _
  have hnone : ctx.outputFragments seq = [] := by rw [TaskContext.outputFragments, hout]; rfl
  have hnone' : ctx'.outputFragments seq = [] := by rw [TaskContext.outputFragments, hout']; rfl
  exact ⟨iff_of_true hnone' hnone, by rw [hnone, hnone']; rfl⟩

end BlockQuery
