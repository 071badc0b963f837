import BlockQuery.Proofs.Plan.Relation

/-!
# Parts of plans

The inputs of joins, sorts and groupings are evaluated in blocks of their own.
A plan can be executed only if all these parts can, and where builders worked
out its schemas, the relations of the parts have them.
-/

namespace BlockQuery

namespace Plan

/-- The inputs of joins, sorts and groupings, which get blocks of their own. -/
def blockingInputs : Plan → List Plan
  | root child => child.blockingInputs
  | scan _ | createTable .. => []
  | join _ _ left right _ => left.blockingInputs ++ left :: (right.blockingInputs ++ [right])
  | groupBy _ _ input _ | sort _ input => input.blockingInputs ++ [input]
  | filter _ input | project _ input _ => input.blockingInputs

/-- The topmost join, sort or grouping, if only filters and projections are above it. -/
def topBlocking? : Plan → Option Plan
  | filter _ input | project _ input _ => input.topBlocking?
  | p => if p.isBlocking then some p else none

/-- The parts of a query whose rows are handed over from block to block. -/
def stored (p : Plan) : List Plan :=
  p.blockingInputs ++ if p.isBlocking then [] else p.topBlocking?.toList

/-- Whether joins, groupings and projections carry the schemas that their builders work out. -/
def Built : Plan → Prop
  | root child => child.Built
  | scan _ | createTable .. => True
  | join type condition left right schema =>
    join type condition left right schema = joining left right type condition ∧
      left.Built ∧ right.Built
  | groupBy keys aggregates input schema =>
    grouping input keys aggregates = .ok (groupBy keys aggregates input schema) ∧ input.Built
  | project targets input schema =>
    project targets input schema = projecting input targets ∧ input.Built
  | filter _ input | sort _ input => input.Built

variable {ctx : TaskContext} {disk : Disk}

/-! ## What holds of the inputs -/

/-- What filters and projections keep holds of a plan if it holds of its topmost operation. -/
theorem topBlocking?_induction {motive : Plan → Prop} {p top : Plan}
    (htop : p.topBlocking? = some top) (hself : motive top)
    (hfilter : ∀ predicate input, input.topBlocking? = some top → motive input →
      motive (.filter predicate input))
    (hproject : ∀ targets input schema, motive input → motive (.project targets input schema)) :
    motive p := by
  induction p with
  | root | scan | createTable => cases htop
  | filter predicate input ih => exact hfilter predicate input htop (ih htop)
  | project targets input schema ih => exact hproject targets input schema (ih htop)
  | join | groupBy | sort =>
    cases htop
    exact hself

/-- Whether what holds of a plan holds of its inputs.  A scan below a filter is left out, since the
two are read as one. -/
structure Inherited (P : Plan → Prop) : Prop where
  root : ∀ child, P (.root child) → P child
  filter : ∀ predicate input, (∀ s, input ≠ .scan s) → P (.filter predicate input) → P input
  project : ∀ targets input schema, P (.project targets input schema) → P input
  sort : ∀ specs input, P (.sort specs input) → P input
  groupBy : ∀ keys aggregates input schema, P (.groupBy keys aggregates input schema) → P input
  join : ∀ type condition left right schema,
    P (.join type condition left right schema) → P left ∧ P right

namespace Inherited

variable {P : Plan → Prop} {p top : Plan}

theorem of_mem_blockingInputs (hP : Inherited P) (h : P p) : ∀ part ∈ p.blockingInputs, P part := by
  have hlast {input : Plan} (hinput : P input) (ih : P input → ∀ part ∈ input.blockingInputs, P part) :
      ∀ part ∈ input.blockingInputs ++ [input], P part :=
    List.forall_mem_append.mpr ⟨ih hinput, List.forall_mem_singleton.mpr hinput⟩
  induction p with
  | root child ih => exact ih (hP.root child h)
  | scan | createTable => exact fun _ hmem => (List.not_mem_nil hmem).elim
  | filter predicate input ih =>
    by_cases hscan : ∃ s, input = scan s
    · obtain ⟨s, rfl⟩ := hscan
      exact fun _ hmem => (List.not_mem_nil hmem).elim
    · exact ih (hP.filter predicate input (fun s hs => hscan ⟨s, hs⟩) h)
  | project targets input schema ih => exact ih (hP.project targets input schema h)
  | sort specs input ih => exact hlast (hP.sort specs input h) ih
  | groupBy keys aggregates input schema ih =>
    exact hlast (hP.groupBy keys aggregates input schema h) ih
  | join type condition left right schema ihl ihr =>
    obtain ⟨hleft, hright⟩ := hP.join type condition left right schema h
    exact List.forall_mem_append.mpr
      ⟨ihl hleft, List.forall_mem_cons.mpr ⟨hleft, hlast hright ihr⟩⟩

theorem of_topBlocking? (hP : Inherited P) (h : P p) (htop : p.topBlocking? = some top) : P top := by
  revert h
  refine topBlocking?_induction (motive := fun q => P q → P top) htop id ?_ ?_
  · intro predicate input hinput ih h
    have hscan : ∀ s, input ≠ scan s := by
      rintro s rfl
      cases hinput
    exact ih (hP.filter predicate input hscan h)
  · exact fun targets input schema ih h => ih (hP.project targets input schema h)

theorem of_mem_stored (hP : Inherited P) (h : P p) : ∀ part ∈ p.stored, P part := by
  intro part hmem
  rcases List.mem_append.mp hmem with hmem | hmem
  · exact hP.of_mem_blockingInputs h part hmem
  · split at hmem
    · exact (List.not_mem_nil hmem).elim
    · exact hP.of_topBlocking? h (Option.mem_toList.mp hmem)

end Inherited

/-- A plan has a relation only if its inputs have one. -/
theorem inherited_relation? (ctx : TaskContext) (disk : Disk) :
    Inherited fun p => ∃ r, p.relation? ctx disk = some r where
  root child h := by rwa [relation?_root] at h
  filter predicate input hscan h := by
    obtain ⟨r, hr⟩ := h
    rw [relation?_filter ctx disk predicate hscan] at hr
    exact (Option.bind_eq_some_iff.mp hr).imp fun _ => And.left
  project targets input schema h := by
    obtain ⟨r, hr⟩ := h
    rw [relation?_project] at hr
    exact (Option.bind_eq_some_iff.mp hr).imp fun _ => And.left
  sort specs input h := by
    obtain ⟨r, hr⟩ := h
    rw [relation?_sort] at hr
    exact (Option.bind_eq_some_iff.mp hr).imp fun _ => And.left
  groupBy keys aggregates input schema h := by
    obtain ⟨r, hr⟩ := h
    rw [relation?_groupBy] at hr
    exact (Option.bind_eq_some_iff.mp hr).imp fun _ => And.left
  join type condition left right schema h := by
    obtain ⟨r, hr⟩ := h
    rw [relation?_join] at hr
    obtain ⟨rl, hl, hrest⟩ := Option.bind_eq_some_iff.mp hr
    obtain ⟨rr, hrr, _⟩ := Option.bind_eq_some_iff.mp hrest
    exact ⟨⟨rl, hl⟩, rr, hrr⟩

theorem inherited_built : Inherited Built where
  root _ h := h
  filter _ _ _ h := h
  project _ _ _ h := h.2
  sort _ _ h := h
  groupBy _ _ _ _ h := h.2
  join _ _ _ _ _ h := h.2

theorem Built.of_mem_stored {p : Plan} (h : p.Built) : ∀ part ∈ p.stored, part.Built :=
  inherited_built.of_mem_stored h

/-! ## Schemas -/

theorem schema_of_select? {r found : Relation} {predicate : Expr}
    (h : r.select? predicate = some found) : found.schema = r.schema := by
  obtain ⟨b, _, hb⟩ := Option.bind_eq_some_iff.mp h
  obtain ⟨rows, _, rfl⟩ := Option.map_eq_some_iff.mp hb
  rfl

theorem schema_of_stored? {schema : Schema} {predicate : Option Expr} {rows : List Row}
    {found : Relation} (h : Relation.stored? schema predicate rows = some found) :
    found.schema = schema := by
  unfold Relation.stored? at h
  split at h
  · cases predicate with
    | none =>
      cases h
      rfl
    | some e => exact schema_of_select? h
  · cases h

theorem schema_of_scanOfFiles {schema : Schema} {fragments : List Fragment}
    {predicate : Option Expr} {found : Relation}
    (h : (Operator.scanOfFiles schema fragments predicate).toOption.bind
      (Operator.relation? disk) = some found) : found.schema = schema := by
  rw [Operator.relation?_scanOfFiles] at h
  obtain ⟨rows, _, hrows⟩ := Option.bind_eq_some_iff.mp h
  exact schema_of_stored? hrows

theorem schema_of_scanOfTable {table : String} {schema : Schema} {predicate : Option Expr}
    {found : Relation}
    (h : (Operator.scanOfTable ctx table schema predicate).toOption.bind
      (Operator.relation? disk) = some found) : found.schema = schema := by
  rw [Operator.scanOfTable_eq] at h
  split at h
  · rw [Operator.relation?_filtering] at h
    obtain ⟨r, hr, hselect⟩ := Option.bind_eq_some_iff.mp h
    obtain ⟨rows, _, rfl⟩ := Option.map_eq_some_iff.mp hr
    exact schema_of_select? hselect
  · rw [Operator.filesOfTable] at h
    split at h
    · cases h
    · exact schema_of_scanOfFiles h

theorem schema_of_ofScan {s : Scan} {outer : Option Expr} {found : Relation}
    (h : (Operator.ofScan ctx s outer).toOption.bind (Operator.relation? disk) = some found) :
    found.schema = s.schema := by
  rw [Operator.ofScan] at h
  split at h
  · rw [bind_toOption] at h
    obtain ⟨fragments, _, hfiles⟩ := Option.bind_eq_some_iff.mp h
    exact schema_of_scanOfFiles hfiles
  · exact schema_of_scanOfTable h

/-- The relation of a plan has the schema that builders worked out. -/
theorem Built.schema_eq {p : Plan} (h : p.Built) {r : Relation}
    (hr : p.relation? ctx disk = some r) : r.schema = p.schema := by
  induction p generalizing r with
  | root child ih =>
    rw [relation?_root] at hr
    exact ih h hr
  | createTable =>
    rw [relation?_createTable] at hr
    cases hr
  | scan s =>
    rw [relation?_scan] at hr
    exact schema_of_ofScan hr
  | filter predicate input ih =>
    by_cases hscan : ∃ s, input = scan s
    · obtain ⟨s, rfl⟩ := hscan
      rw [relation?_filter_scan] at hr
      exact schema_of_ofScan hr
    · rw [relation?_filter ctx disk predicate fun s hs => hscan ⟨s, hs⟩] at hr
      obtain ⟨r', hr', hselect⟩ := Option.bind_eq_some_iff.mp hr
      exact (schema_of_select? hselect).trans (ih h hr')
  | join type condition left right schema ihl ihr =>
    obtain ⟨hschema, hleft, hright⟩ := h
    rw [relation?_join] at hr
    obtain ⟨rl, hl, hrest⟩ := Option.bind_eq_some_iff.mp hr
    obtain ⟨rr, hrr, hjoin⟩ := Option.bind_eq_some_iff.mp hrest
    obtain ⟨b, _, hb⟩ := Option.bind_eq_some_iff.mp hjoin
    obtain ⟨rows, _, rfl⟩ := Option.map_eq_some_iff.mp hb
    have hsl := ihl hleft hl
    have hsr := ihr hright hrr
    rw [hschema, hsl, hsr]
    rfl
  | sort specs input ih =>
    rw [relation?_sort] at hr
    obtain ⟨r', hr', hsort⟩ := Option.bind_eq_some_iff.mp hr
    obtain ⟨order, _, rfl⟩ := Option.map_eq_some_iff.mp hsort
    have hschema := ih h hr'
    exact hschema
  | groupBy keys aggregates input schema ih =>
    rw [relation?_groupBy] at hr
    obtain ⟨r', _, hgroup⟩ := Option.bind_eq_some_iff.mp hr
    obtain ⟨parts, _, hparts⟩ := Option.bind_eq_some_iff.mp hgroup
    obtain ⟨rows, _, rfl⟩ := Option.map_eq_some_iff.mp hparts
    rfl
  | project targets input schema ih =>
    rw [relation?_project] at hr
    obtain ⟨r', _, hproject⟩ := Option.bind_eq_some_iff.mp hr
    obtain ⟨exprs, _, hexprs⟩ := Option.bind_eq_some_iff.mp hproject
    obtain ⟨rows, _, rfl⟩ := Option.map_eq_some_iff.mp hexprs
    rw [h.1]
    rfl

theorem Built.wide_iff {p : Plan} (h : p.Built) :
    (∀ r, p.relation? ctx disk = some r → r.Wide) ↔
      ∀ rows, p.answer ctx disk = .ok rows → ∀ row ∈ rows, row.length = p.schema.length := by
  constructor
  · intro hwide rows hrows row hrow
    obtain ⟨schema, hr⟩ := (answer_ok_iff ctx disk).mp hrows
    rw [← h.schema_eq hr]
    exact hwide _ hr row hrow
  · intro hrows r hr row hrow
    rw [h.schema_eq hr]
    exact hrows r.rows ((answer_ok_iff ctx disk).mpr ⟨r.schema, hr⟩) row hrow

end Plan

end BlockQuery
