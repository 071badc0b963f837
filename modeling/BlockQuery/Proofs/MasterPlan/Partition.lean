import BlockQuery.MasterPlan.Improvement
import BlockQuery.MasterPlan.Partition
import BlockQuery.Proofs.Except
import BlockQuery.Proofs.MasterPlan.Accepted
import BlockQuery.Proofs.Plan.Parts

/-!
# Blocks and the plans they stand for

The plan of a block stands for a part of the query: where it scans the output
of another block, the query goes on with the part which that block stands for.
If the outputs hold the relations of those parts, and all rows are as wide as
the schemas say, both plans have the same relation.
-/

namespace BlockQuery

/-- Whether a plan stands for another one, if the output of each block stands
for what `origin` says. -/
inductive Stands (origin : UInt32 → Plan) : Plan → Plan → Prop where
  | table (name : String) (schema : Schema) (condition : Option Expr) (hint hint' : Option UInt64) :
      Stands origin (.scan ⟨.table name, schema, condition, hint⟩)
        (.scan ⟨.table name, schema, condition, hint'⟩)
  | output (seq : UInt32) (hint : Option UInt64) :
      Stands origin (.scanBlock seq (origin seq).schema hint) (origin seq)
  /-- A filter directly over a scan of a table is one with it. -/
  | filterTable (predicate : Expr) (name : String) (schema : Schema) (condition : Option Expr)
      (hint hint' : Option UInt64) :
      Stands origin (.filter predicate (.scan ⟨.table name, schema, condition, hint⟩))
        (.filter predicate (.scan ⟨.table name, schema, condition, hint'⟩))
  | filter (predicate : Expr) {q p : Plan} (hscan : ∀ s, p ≠ .scan s) (h : Stands origin q p) :
      Stands origin (.filter predicate q) (.filter predicate p)
  | project (targets : List Target) (schema : Schema) {q p : Plan} (h : Stands origin q p) :
      Stands origin (.project targets q schema) (.project targets p schema)
  | join (type : JoinType) (condition : Option Expr) (schema : Schema) {l r left right : Plan}
      (hl : Stands origin l left) (hr : Stands origin r right) :
      Stands origin (.join type condition l r schema) (.join type condition left right schema)
  | sort (specs : List SortSpec) {q p : Plan} (h : Stands origin q p) :
      Stands origin (.sort specs q) (.sort specs p)
  | groupBy (keys : List String) (aggregates : List Aggregate) (schema : Schema) {q p : Plan}
      (h : Stands origin q p) :
      Stands origin (.groupBy keys aggregates q schema) (.groupBy keys aggregates p schema)

namespace Stands

variable {origin : UInt32 → Plan} {q p : Plan}

theorem schema_eq (h : Stands origin q p) : q.schema = p.schema := by
  induction h with
  | table | output | filterTable | project | join | groupBy => rfl
  | filter _ _ _ ih | sort _ _ ih => exact ih

/-- What is scanned of a block stands for the origin of the block. -/
theorem scanOf {id : BlockId} {piece : Partition.Piece} (h : Stands origin piece.plan p)
    (horigin : origin id.seq = p) : Stands origin (Partition.scanOf id piece) p := by
  have hschema := h.schema_eq
  subst horigin
  rw [Partition.scanOf, hschema]
  exact output id.seq piece.rowHint

/-! ## The relation of a block -/

variable {ctx ctx' : TaskContext} {disk disk' : Disk}

/-- Whether the output of a block holds the relation of what the block stands for. -/
def HasOutput (origin : UInt32 → Plan) (ctx : TaskContext) (disk : Disk) (ctx' : TaskContext)
    (disk' : Disk) (seq : UInt32) : Prop :=
  ∃ fragment rows, ctx'.outputFragments seq = [fragment] ∧
    disk'.rows? fragment.path = some rows ∧
    (origin seq).relation? ctx disk = some ⟨(origin seq).schema, rows⟩

/-- The relation of a scan of an output, perhaps with a filter. -/
theorem HasOutput.relation?_ofScan {seq : UInt32} (h : HasOutput origin ctx disk ctx' disk' seq)
    (hint : Option UInt64) (outer : Option Expr) :
    ∃ rows, (origin seq).relation? ctx disk = some ⟨(origin seq).schema, rows⟩ ∧
      (Operator.ofScan ctx' ⟨.block seq, (origin seq).schema, none, hint⟩ outer).toOption.bind
        (Operator.relation? disk') = Relation.stored? (origin seq).schema outer rows := by
  obtain ⟨fragment, rows, hout, hrows, hrelation⟩ := h
  refine ⟨rows, hrelation, ?_⟩
  rw [Operator.relation?_ofScan_block ctx' disk' hout, hrows, Option.bind_some]

/-- A scan of an output passes on rows that are wide enough only. -/
theorem HasOutput.wide {seq : UInt32} (h : HasOutput origin ctx disk ctx' disk' seq)
    {hint : Option UInt64} {outer : Option Expr} {found : Relation}
    (hfound : (Operator.ofScan ctx' ⟨.block seq, (origin seq).schema, none, hint⟩
      outer).toOption.bind (Operator.relation? disk') = some found) {r : Relation}
    (hr : (origin seq).relation? ctx disk = some r) : r.Wide := by
  obtain ⟨rows, hrelation, hscan⟩ := h.relation?_ofScan hint outer
  cases hrelation.symm.trans hr
  by_contra hwide
  rw [hscan, Relation.stored?.eq_def, if_neg hwide] at hfound
  cases hfound

theorem mem_scannedBlocks_scanBlock (seq : UInt32) (schema : Schema) (hint : Option UInt64) :
    seq ∈ (Plan.scanBlock seq schema hint).scannedBlocks := List.mem_singleton_self seq

theorem scannedBlocks_join (type : JoinType) (condition : Option Expr) (l r : Plan)
    (schema : Schema) : (Plan.join type condition l r schema).scannedBlocks =
      l.scannedBlocks ++ r.scannedBlocks := List.filterMap_append

/-- The relation of a block is that of what it stands for, if all rows it reads are wide enough. -/
theorem relation?_eq (h : Stands origin q p) (htables : SameTables ctx disk ctx' disk')
    (hout : ∀ seq ∈ q.scannedBlocks, HasOutput origin ctx disk ctx' disk' seq)
    (hwide : ∀ seq ∈ q.scannedBlocks, ∀ r, (origin seq).relation? ctx disk = some r → r.Wide) :
    q.relation? ctx' disk' = p.relation? ctx disk := by
  induction h with
  | table name schema condition =>
    rw [Plan.relation?_scan, Plan.relation?_scan]
    exact htables.relation?_scanOfTable name schema _
  | output seq hint =>
    have hseq := mem_scannedBlocks_scanBlock seq (origin seq).schema hint
    obtain ⟨rows, hrelation, hscan⟩ := (hout seq hseq).relation?_ofScan hint none
    rw [Plan.scanBlock, Plan.relation?_scan, hscan, hrelation, Relation.stored?,
      if_pos (hwide seq hseq _ hrelation)]
  | filterTable predicate name schema condition =>
    rw [Plan.relation?_filter_scan, Plan.relation?_filter_scan]
    exact htables.relation?_scanOfTable name schema _
  | @filter predicate q p hscan h ih =>
    rw [Plan.relation?_filter _ _ _ hscan]
    by_cases hq : ∃ s, q = .scan s
    · obtain ⟨s, rfl⟩ := hq
      cases h with
      | table => exact absurd rfl (hscan _)
      | output seq hint =>
        have hseq := mem_scannedBlocks_scanBlock seq (origin seq).schema hint
        obtain ⟨rows, hrelation, hscan⟩ := (hout seq hseq).relation?_ofScan hint (some predicate)
        rw [Plan.relation?_filter_scan, hscan, hrelation, Relation.stored?,
          if_pos (hwide seq hseq _ hrelation)]
        rfl
    · rw [Plan.relation?_filter _ _ _ fun s hs => hq ⟨s, hs⟩, ih hout hwide]
  | project targets schema h ih =>
    rw [Plan.relation?_project, Plan.relation?_project, ih hout hwide]
  | @join type condition schema l r left right hl hr ihl ihr =>
    rw [scannedBlocks_join] at hout hwide
    rw [Plan.relation?_join, Plan.relation?_join,
      ihl (fun s hs => hout s (List.mem_append_left _ hs))
        (fun s hs => hwide s (List.mem_append_left _ hs)),
      ihr (fun s hs => hout s (List.mem_append_right _ hs))
        (fun s hs => hwide s (List.mem_append_right _ hs))]
  | sort specs h ih => rw [Plan.relation?_sort, Plan.relation?_sort, ih hout hwide]
  | groupBy keys aggregates schema h ih =>
    rw [Plan.relation?_groupBy, Plan.relation?_groupBy, ih hout hwide]

/-- A block that has a relation reads rows that are wide enough only. -/
theorem wide_of_relation? (h : Stands origin q p)
    (hout : ∀ seq ∈ q.scannedBlocks, HasOutput origin ctx disk ctx' disk' seq) {found : Relation}
    (hfound : q.relation? ctx' disk' = some found) :
    ∀ seq ∈ q.scannedBlocks, ∀ r, (origin seq).relation? ctx disk = some r → r.Wide := by
  induction h generalizing found with
  | table | filterTable => exact fun _ hseq => (List.not_mem_nil hseq).elim
  | output seq hint =>
    rw [Plan.scanBlock, Plan.relation?_scan] at hfound
    intro seq' hseq r hr
    obtain rfl : seq' = seq := List.mem_singleton.mp hseq
    exact (hout seq' hseq).wide hfound hr
  | @filter predicate q p hscan h ih =>
    by_cases hq : ∃ s, q = .scan s
    · obtain ⟨s, rfl⟩ := hq
      cases h with
      | table => exact absurd rfl (hscan _)
      | output seq hint =>
        rw [Plan.relation?_filter_scan] at hfound
        intro seq' hseq r hr
        obtain rfl : seq' = seq := List.mem_singleton.mp hseq
        exact (hout seq' hseq).wide hfound hr
    · rw [Plan.relation?_filter _ _ _ fun s hs => hq ⟨s, hs⟩] at hfound
      obtain ⟨r, hr, _⟩ := Option.bind_eq_some_iff.mp hfound
      exact ih hout hr
  | project targets schema h ih =>
    rw [Plan.relation?_project] at hfound
    obtain ⟨r, hr, _⟩ := Option.bind_eq_some_iff.mp hfound
    exact ih hout hr
  | @join type condition schema l r left right hl hr ihl ihr =>
    rw [Plan.relation?_join] at hfound
    obtain ⟨rl, hrl, hrest⟩ := Option.bind_eq_some_iff.mp hfound
    obtain ⟨rr, hrr, _⟩ := Option.bind_eq_some_iff.mp hrest
    rw [scannedBlocks_join] at hout ⊢
    intro seq hseq
    rcases List.mem_append.mp hseq with hseq | hseq
    · exact ihl (fun s hs => hout s (List.mem_append_left _ hs)) hrl seq hseq
    · exact ihr (fun s hs => hout s (List.mem_append_right _ hs)) hrr seq hseq
  | sort specs h ih =>
    rw [Plan.relation?_sort] at hfound
    obtain ⟨r, hr, _⟩ := Option.bind_eq_some_iff.mp hfound
    exact ih hout hr
  | groupBy keys aggregates schema h ih =>
    rw [Plan.relation?_groupBy] at hfound
    obtain ⟨r, hr, _⟩ := Option.bind_eq_some_iff.mp hfound
    exact ih hout hr

/-! ## Taking the topmost operation apart -/

/-- The two plans that a detached block is made of stand for what the block
stands for, and for its topmost operation. -/
theorem detach (h : Stands origin q p) {seq : UInt32} {hint : Option UInt64} {upper lower : Plan}
    (hdetach : Partition.detach seq hint q = some (upper, lower)) :
    ∃ top, p.topBlocking? = some top ∧ Stands origin lower top ∧
      (origin seq = top → Stands origin upper p) := by
  have hput : ∀ {x y : Plan}, Stands origin x y → origin seq = y →
      Stands origin (.scanBlock seq x.schema hint) y := by
    intro x y hx horigin
    rw [hx.schema_eq, ← horigin]
    exact output seq hint
  induction h generalizing upper with
  | table | output | filterTable => cases hdetach
  | filter predicate hscan h ih =>
    obtain ⟨⟨above, below⟩, hinput, heq⟩ := Option.map_eq_some_iff.mp hdetach
    cases heq
    obtain ⟨top, htop, hlower, hupper⟩ := ih hinput
    exact ⟨top, htop, hlower, fun horigin => filter predicate hscan (hupper horigin)⟩
  | project targets schema h ih =>
    obtain ⟨⟨above, below⟩, hinput, heq⟩ := Option.map_eq_some_iff.mp hdetach
    cases heq
    obtain ⟨top, htop, hlower, hupper⟩ := ih hinput
    exact ⟨top, htop, hlower, fun horigin => project targets schema (hupper horigin)⟩
  | join type condition schema hl hr =>
    cases hdetach
    have hnode := join type condition schema hl hr
    exact ⟨_, rfl, hnode, hput hnode⟩
  | sort specs h =>
    cases hdetach
    have hnode := sort specs h
    exact ⟨_, rfl, hnode, hput hnode⟩
  | groupBy keys aggregates schema h =>
    cases hdetach
    have hnode := groupBy keys aggregates schema h
    exact ⟨_, rfl, hnode, hput hnode⟩

end Stands

/-! ## Plans over outputs only -/

/-- Whether a plan reads the outputs of blocks, and no tables. -/
def Plan.TableFree : Plan → Prop
  | scan s => ∃ seq, s.source = .block seq
  | join _ _ left right _ => left.TableFree ∧ right.TableFree
  | root input | filter _ input | groupBy _ _ input _ | sort _ input | project _ input _ =>
    input.TableFree
  | createTable .. => True

theorem Partition.tableFree_scanOf (id : BlockId) (piece : Partition.Piece) :
    (Partition.scanOf id piece).TableFree := ⟨id.seq, rfl⟩

/-! ## The blocks of a partition -/

namespace Partition

/-- Blocks with the parts of the query that they stand for. -/
abbrev Origins := List (Block × Plan)

/-- Whether origins of outputs agree with those of some blocks. -/
def Agree (origin : UInt32 → Plan) (news : Origins) : Prop :=
  ∀ n ∈ news, origin n.1.id.seq = n.2

/-- Whether some blocks and a plan stand for the given parts of a query. -/
def AllStand (news : Origins) (q p : Plan) : Prop :=
  ∀ origin, Agree origin news → (∀ n ∈ news, Stands origin n.1.plan n.2) ∧ Stands origin q p

/-- What closing the blocks below a plan leads to. -/
structure Visited (s : State) (p : Plan) (piece : Piece) (after : State) (news : Origins) :
    Prop where
  blocks : after.blocks = s.blocks ++ news.map Prod.fst
  origins : news.map Prod.snd = p.blockingInputs
  stand : AllStand news piece.plan p
  blocking : piece.plan.isBlocking = p.isBlocking
  detached : ∀ seq hint, (detach seq hint piece.plan).isSome = p.topBlocking?.isSome
  notRelay : piece.plan.isRelay = false
  noRelays : ∀ n ∈ news, n.1.plan.isRelay = false
  tableFree : ∀ {seq hint upper lower}, detach seq hint piece.plan = some (upper, lower) →
    lower.TableFree ∧ lower.isRelay = false

theorem Agree.append_left {origin : UInt32 → Plan} {xs ys : Origins}
    (h : Agree origin (xs ++ ys)) : Agree origin xs :=
  fun n hn => h n (List.mem_append_left _ hn)

theorem Agree.append_right {origin : UInt32 → Plan} {xs ys : Origins}
    (h : Agree origin (xs ++ ys)) : Agree origin ys :=
  fun n hn => h n (List.mem_append_right _ hn)

variable {catalog : Option Catalog}

/-- How the blocks below a plan are closed, node by node.  A catalog only checks what is there, and
fills in the row hints of scans. -/
inductive Visits (catalog : Option Catalog) : Plan → State → Piece → State → Prop
  | scan (name : String) (schema : Schema) (condition : Option Expr) {hint hint' : Option UInt64}
      (s : State) (same : catalog = none → hint' = hint) :
    Visits catalog (.scan ⟨.table name, schema, condition, hint⟩) s
      ⟨.scan ⟨.table name, schema, condition, hint'⟩, [], hint'⟩ s
  | filter (predicate : Expr) {input : Plan} {s after : State} {piece : Piece}
      (below : Visits catalog input s piece after) :
    Visits catalog (.filter predicate input) s
      { piece with plan := .filter predicate piece.plan } after
  | project (targets : List Target) (schema : Schema) {input : Plan} {s after : State}
      {piece : Piece} (below : Visits catalog input s piece after) :
    Visits catalog (.project targets input schema) s
      { piece with plan := .project targets piece.plan schema } after
  | sort (specs : List SortSpec) {input : Plan} {s t : State} {piece : Piece}
      (below : Visits catalog input s piece t) :
    Visits catalog (.sort specs input) s
      ⟨.sort specs (scanOf (close t piece (.range specs)).1 piece),
        [(close t piece (.range specs)).1], piece.rowHint⟩ (close t piece (.range specs)).2
  | groupBy (keys : List String) (aggregates : List Aggregate) (schema : Schema) {input : Plan}
      {s t : State} {piece : Piece} (below : Visits catalog input s piece t) :
    Visits catalog (.groupBy keys aggregates input schema) s
      ⟨.groupBy keys aggregates (scanOf (close t piece (.hash keys)).1 piece) schema,
        [(close t piece (.hash keys)).1], piece.rowHint⟩ (close t piece (.hash keys)).2
  | join (type : JoinType) (condition : Option Expr) (schema : Schema) {left right : Plan}
      {s t u : State} {l r : Piece} {pairs : List (String × String)}
      (keys : pairs = (condition.map (Expr.equiPairs left.schema right.schema)).getD [])
      (belowLeft : Visits catalog left s l t)
      (belowRight : Visits catalog right (close t l (.hash (pairs.map (·.1)))).2 r u) :
    Visits catalog (.join type condition left right schema) s
      ⟨.join type condition (scanOf (close t l (.hash (pairs.map (·.1)))).1 l)
          (scanOf (close u r (.hash (pairs.map (·.2)))).1 r) schema,
        [(close t l (.hash (pairs.map (·.1)))).1, (close u r (.hash (pairs.map (·.2)))).1],
        largerHint l.rowHint r.rowHint⟩ (close u r (.hash (pairs.map (·.2)))).2

theorem visits_of_visit {p : Plan} {s after : State} {piece : Piece}
    (h : visit catalog p s = .ok (piece, after)) : Visits catalog p s piece after := by
  induction p generalizing s after piece with
  | root | createTable => cases h
  | scan scan =>
    obtain ⟨source, schema, condition, hint⟩ := scan
    cases source with
    | block seq => cases h
    | table name =>
      cases catalog with
      | none =>
        cases h
        exact .scan name schema condition s fun _ => rfl
      | some c =>
        simp only [visit] at h
        split at h
        · cases h
        · cases h
          exact .scan name schema condition s nofun
  | filter predicate input ih =>
    rw [visit] at h
    obtain ⟨⟨below, t⟩, hv, hpiece⟩ := Except.bind_eq_ok.mp h
    cases hpiece
    exact .filter predicate (ih hv)
  | project targets input schema ih =>
    rw [visit] at h
    obtain ⟨⟨below, t⟩, hv, hpiece⟩ := Except.bind_eq_ok.mp h
    cases hpiece
    exact .project targets schema (ih hv)
  | sort specs input ih =>
    rw [visit] at h
    obtain ⟨⟨below, t⟩, hv, hpiece⟩ := Except.bind_eq_ok.mp h
    cases hpiece
    exact .sort specs (ih hv)
  | groupBy keys aggregates input schema ih =>
    rw [visit.eq_def] at h
    cases catalog with
    | none =>
      obtain ⟨⟨below, t⟩, hv, hpiece⟩ := Except.bind_eq_ok.mp h
      cases hpiece
      exact .groupBy keys aggregates schema (ih hv)
    | some c =>
      obtain ⟨_, -, h⟩ := Except.bind_eq_ok.mp h
      obtain ⟨⟨below, t⟩, hv, hpiece⟩ := Except.bind_eq_ok.mp h
      cases hpiece
      exact .groupBy keys aggregates schema (ih hv)
  | join type condition left right schema ihl ihr =>
    rw [visit] at h
    obtain ⟨⟨l, t⟩, hl, h⟩ := Except.bind_eq_ok.mp h
    obtain ⟨⟨r, u⟩, hr, hpiece⟩ := Except.bind_eq_ok.mp h
    cases hpiece
    exact .join type condition schema rfl (ihl hl) (ihr hr)

theorem Visited.filter {predicate : Expr} {input : Plan} {s after : State} {piece : Piece}
    {news : Origins} (hv : Visits catalog input s piece after)
    (h : Visited s input piece after news) :
    Visited s (.filter predicate input) { piece with plan := .filter predicate piece.plan } after
      news := by
  refine ⟨h.blocks, h.origins, ?_, rfl, ?_, h.notRelay, h.noRelays, ?_⟩
  · intro origin hagree
    obtain ⟨hblocks, hstands⟩ := h.stand origin hagree
    refine ⟨hblocks, ?_⟩
    by_cases hscan : ∃ scan, input = .scan scan
    · obtain ⟨scan, rfl⟩ := hscan
      cases hv with
      | scan name schema condition => exact .filterTable predicate name schema condition _ _
    · exact .filter predicate (fun scan heq => hscan ⟨scan, heq⟩) hstands
  · intro seq hint
    rw [detach, Option.isSome_map, h.detached]
    rfl
  · intro seq hint upper lower hdetach
    obtain ⟨⟨above, below⟩, hinput, heq⟩ := Option.map_eq_some_iff.mp hdetach
    cases heq
    exact h.tableFree hinput

theorem Visited.project {targets : List Target} {schema : Schema} {input : Plan} {s after : State}
    {piece : Piece} {news : Origins} (h : Visited s input piece after news) :
    Visited s (.project targets input schema)
      { piece with plan := .project targets piece.plan schema } after news := by
  refine ⟨h.blocks, h.origins, ?_, rfl, ?_, h.notRelay, h.noRelays, ?_⟩
  · intro origin hagree
    obtain ⟨hblocks, hstands⟩ := h.stand origin hagree
    exact ⟨hblocks, .project targets schema hstands⟩
  · intro seq hint
    rw [detach, Option.isSome_map, h.detached]
    rfl
  · intro seq hint upper lower hdetach
    obtain ⟨⟨above, below⟩, hinput, heq⟩ := Option.map_eq_some_iff.mp hdetach
    cases heq
    exact h.tableFree hinput

/-- The block that a piece is closed as. -/
def closed (s : State) (piece : Piece) (output : Shuffle) : Block :=
  ⟨⟨s.query, s.nextSeq⟩, piece.inputs, output, piece.rowHint, piece.plan⟩

theorem close_eq (s : State) (piece : Piece) (output : Shuffle) :
    close s piece output = ((closed s piece output).id,
      ⟨s.query, s.nextSeq + 1, s.blocks ++ [closed s piece output]⟩) := rfl

/-- An input that is closed is one more block, and its scan stands for it. -/
theorem Visited.close {input : Plan} {s after : State} {piece : Piece} {news : Origins}
    (h : Visited s input piece after news) (output : Shuffle) :
    (close after piece output).2.blocks =
        s.blocks ++ (news ++ [(closed after piece output, input)]).map Prod.fst ∧
      AllStand (news ++ [(closed after piece output, input)])
        (scanOf (closed after piece output).id piece) input ∧
      ∀ n ∈ news ++ [(closed after piece output, input)], n.1.plan.isRelay = false := by
  refine ⟨?_, ?_, ?_⟩
  · rw [close_eq, h.blocks, List.append_assoc, List.map_append]
    rfl
  · intro origin hagree
    obtain ⟨hblocks, hstands⟩ := h.stand origin hagree.append_left
    have hlast := hagree.append_right _ (List.mem_singleton_self _)
    refine ⟨?_, hstands.scanOf hlast⟩
    intro n hn
    rcases List.mem_append.mp hn with hn | hn
    · exact hblocks n hn
    · obtain rfl := List.mem_singleton.mp hn
      exact hstands
  · intro n hn
    rcases List.mem_append.mp hn with hn | hn
    · exact h.noRelays n hn
    · obtain rfl := List.mem_singleton.mp hn
      exact h.notRelay

/-- A join, sort or grouping of outputs is detached as a whole. -/
theorem detach_blocking {seq : UInt32} {hint : Option UInt64} {q upper lower : Plan}
    (hq : q.isBlocking = true) (h : detach seq hint q = some (upper, lower)) : lower = q := by
  cases q with
  | join | sort | groupBy =>
    cases h
    rfl
  | root | scan | filter | project | createTable => cases hq

/-- Whatever was closed before, the blocks below a plan stand for its parts. -/
theorem Visits.exists_visited {p : Plan} {s after : State} {piece : Piece}
    (h : Visits catalog p s piece after) : ∃ news, Visited s p piece after news := by
  induction h with
  | scan name schema condition s =>
    exact ⟨[], by simp, rfl, fun _ _ => ⟨nofun, .table name schema condition _ _⟩, rfl,
      fun _ _ => rfl, rfl, nofun, nofun⟩
  | filter predicate below ih =>
    obtain ⟨news, hnews⟩ := ih
    exact ⟨news, hnews.filter below⟩
  | project targets schema below ih =>
    obtain ⟨news, hnews⟩ := ih
    exact ⟨news, hnews.project⟩
  | sort specs below ih =>
    obtain ⟨news, hnews⟩ := ih
    obtain ⟨hblocks, hstand, hrelays⟩ := hnews.close (.range specs)
    refine ⟨_, hblocks, ?_, ?_, rfl, fun _ _ => rfl, rfl, hrelays, ?_⟩
    · rw [List.map_append, hnews.origins]
      rfl
    · intro origin hagree
      obtain ⟨hall, hscan⟩ := hstand origin hagree
      exact ⟨hall, .sort specs hscan⟩
    · intro seq hint upper lower hdetach
      rw [detach_blocking rfl hdetach]
      exact ⟨tableFree_scanOf _ _, rfl⟩
  | groupBy keys aggregates schema below ih =>
    obtain ⟨news, hnews⟩ := ih
    obtain ⟨hblocks, hstand, hrelays⟩ := hnews.close (.hash keys)
    refine ⟨_, hblocks, ?_, ?_, rfl, fun _ _ => rfl, rfl, hrelays, ?_⟩
    · rw [List.map_append, hnews.origins]
      rfl
    · intro origin hagree
      obtain ⟨hall, hscan⟩ := hstand origin hagree
      exact ⟨hall, .groupBy keys aggregates schema hscan⟩
    · intro seq hint upper lower hdetach
      rw [detach_blocking rfl hdetach]
      exact ⟨tableFree_scanOf _ _, rfl⟩
  | @join type condition schema left right s t u l r pairs keys belowLeft belowRight ihl ihr =>
    obtain ⟨newsl, hnewsl⟩ := ihl
    obtain ⟨newsr, hnewsr⟩ := ihr
    obtain ⟨hblocksl, hstandl, hrelaysl⟩ := hnewsl.close (.hash (pairs.map (·.1)))
    obtain ⟨hblocksr, hstandr, hrelaysr⟩ := hnewsr.close (.hash (pairs.map (·.2)))
    refine ⟨newsl ++ [(closed t l (.hash (pairs.map (·.1))), left)] ++
      (newsr ++ [(closed u r (.hash (pairs.map (·.2))), right)]), ?_, ?_, ?_, rfl,
      fun _ _ => rfl, rfl, List.forall_mem_append.mpr ⟨hrelaysl, hrelaysr⟩, ?_⟩
    · rw [List.map_append, ← List.append_assoc, ← hblocksl]
      exact hblocksr
    · simp [hnewsl.origins, hnewsr.origins, Plan.blockingInputs]
    · intro origin hagree
      obtain ⟨hl, hscanl⟩ := hstandl origin hagree.append_left
      obtain ⟨hr, hscanr⟩ := hstandr origin hagree.append_right
      exact ⟨List.forall_mem_append.mpr ⟨hl, hr⟩, .join type condition schema hscanl hscanr⟩
    · intro seq hint upper lower hdetach
      rw [detach_blocking rfl hdetach]
      exact ⟨⟨tableFree_scanOf _ l, tableFree_scanOf _ r⟩, rfl⟩

/-- Whether blocks and a terminal block stand for the stored parts of a query and for it all. -/
structure Split (p : Plan) (blocks : List Block) (terminal : Block) (news : Origins) : Prop where
  blocks_eq : blocks = news.map Prod.fst ++ [terminal]
  origins : news.map Prod.snd = p.stored
  stand : AllStand news terminal.plan p
  relays : ∀ b ∈ blocks, b.plan.isRelay = true →
    ∃ c ∈ blocks, b.inputs = [c.id] ∧ c.plan.TableFree

theorem Visited.not_isRelay {p : Plan} {s after : State} {top : Piece} {news : Origins}
    (h : Visited s p top after news) : ∀ b ∈ news.map Prod.fst, b.plan.isRelay ≠ true := by
  intro b hb
  obtain ⟨n, hn, rfl⟩ := List.mem_map.mp hb
  exact Bool.eq_false_iff.mp (h.noRelays n hn)

/-- The open piece as the terminal block, where it has no operation to be taken out. -/
theorem Visited.split_whole {p : Plan} {s after : State} {top : Piece} {news : Origins}
    (h : Visited s p top after news) (hs : s.blocks = []) (hstored : p.stored = p.blockingInputs) :
    Split p (Partition.close after top .none).2.blocks (closed after top .none) news := by
  have hblocks : after.blocks = news.map Prod.fst := by rw [h.blocks, hs, List.nil_append]
  refine ⟨by rw [close_eq, hblocks], by rw [hstored, h.origins], h.stand, ?_⟩
  intro b hb hrelay
  rw [close_eq, hblocks] at hb
  rcases List.mem_append.mp hb with hb | hb
  · exact absurd hrelay (h.not_isRelay b hb)
  · obtain rfl := List.mem_singleton.mp hb
    exact absurd hrelay (Bool.eq_false_iff.mp h.notRelay)

/-- The topmost operation in a block of its own, and what is above it as the terminal block. -/
theorem Visited.split_detached {p operation upper lower : Plan} {s after : State} {top : Piece}
    {news : Origins} (h : Visited s p top after news) (hs : s.blocks = [])
    (hblocking : ¬p.isBlocking = true) (htop : p.topBlocking? = some operation)
    (hdetach : detach after.nextSeq top.rowHint top.plan = some (upper, lower)) :
    Split p
      (Partition.close (Partition.close after { top with plan := lower } (detachedOutput lower)).2
        ⟨upper, [⟨after.query, after.nextSeq⟩], top.rowHint⟩ .none).2.blocks
      (closed (Partition.close after { top with plan := lower } (detachedOutput lower)).2
        ⟨upper, [⟨after.query, after.nextSeq⟩], top.rowHint⟩ .none)
      (news ++ [(closed after { top with plan := lower } (detachedOutput lower), operation)]) := by
  have hblocks : after.blocks = news.map Prod.fst := by rw [h.blocks, hs, List.nil_append]
  obtain ⟨hfree, hnotRelay⟩ := h.tableFree hdetach
  refine ⟨?_, ?_, ?_, ?_⟩
  · simp only [close_eq, hblocks, List.map_append]
    rfl
  · rw [Plan.stored, if_neg hblocking, htop, List.map_append, h.origins]
    rfl
  · intro origin hagree
    obtain ⟨hall, hstands⟩ := h.stand origin hagree.append_left
    obtain ⟨found, hfound, hlower, hupper⟩ := hstands.detach hdetach
    cases htop.symm.trans hfound
    refine ⟨?_, hupper (hagree.append_right _ (List.mem_singleton_self _))⟩
    exact List.forall_mem_append.mpr ⟨hall, List.forall_mem_singleton.mpr hlower⟩
  · intro b hb hrelay
    simp only [close_eq, hblocks, List.append_assoc, List.cons_append, List.nil_append,
      List.mem_append, List.mem_cons, List.not_mem_nil, or_false] at hb ⊢
    rcases hb with hb | rfl | rfl
    · exact absurd hrelay (h.not_isRelay b hb)
    · exact absurd hrelay (Bool.eq_false_iff.mp hnotRelay)
    · exact ⟨_, Or.inr (Or.inl rfl), rfl, hfree⟩

/-- The terminal block, and the topmost operation if it is taken out of it. -/
theorem Visited.finish {p : Plan} {s after : State} {top : Piece} {news : Origins}
    (h : Visited s p top after news) (hs : s.blocks = []) :
    ∃ terminal all, (finish after top).1 = terminal.id ∧
      Split p (finish after top).2.blocks terminal all := by
  rw [Partition.finish]
  by_cases hblocking : top.plan.isBlocking = true
  · rw [if_pos hblocking]
    have hstored : p.stored = p.blockingInputs := by
      rw [Plan.stored, if_pos (h.blocking ▸ hblocking), List.append_nil]
    exact ⟨_, news, rfl, h.split_whole hs hstored⟩
  · rw [if_neg hblocking]
    rw [h.blocking] at hblocking
    have hdetached := h.detached after.nextSeq top.rowHint
    cases hdetach : detach after.nextSeq top.rowHint top.plan with
    | none =>
      rw [hdetach] at hdetached
      have hnone : p.topBlocking? = none := by simpa using hdetached.symm
      have hstored : p.stored = p.blockingInputs := by
        rw [Plan.stored, if_neg hblocking, hnone]
        simp
      exact ⟨_, news, rfl, h.split_whole hs hstored⟩
    | some found =>
      obtain ⟨upper, lower⟩ := found
      rw [hdetach] at hdetached
      obtain ⟨operation, htop⟩ := Option.isSome_iff_exists.mp hdetached.symm
      exact ⟨_, _, rfl, h.split_detached hs hblocking htop hdetach⟩

end Partition

/-! ## The master plan of a query -/

/-- What the blocks of a master plan stand for. -/
structure MasterPlan.Represents (plan : MasterPlan) (child : Plan) (origin : UInt32 → Plan) :
    Prop where
  wellFormed : plan.WellFormed
  terminal : origin plan.terminal.seq = child
  stands : ∀ b ∈ plan.blocks, Stands origin b.plan (origin b.id.seq)

/-- The blocks other than the terminal one stand for just the stored parts of a query. -/
structure MasterPlan.StandsFor (plan : MasterPlan) (child : Plan) (origin : UInt32 → Plan) : Prop
    extends plan.Represents child origin where
  stored : ∀ part, part ∈ child.stored ↔
    ∃ b ∈ plan.blocks, b.id ≠ plan.terminal ∧ origin b.id.seq = part

/-- Blocks that only filter and project the rows of others read no tables by way of these. -/
def MasterPlan.Relayed (plan : MasterPlan) : Prop :=
  ∀ b ∈ plan.blocks, b.plan.isRelay = true →
    ∀ c ∈ plan.blocks, c.id ∈ b.inputs → c.plan.TableFree

open BlockQuery.Partition in
/-- The parts that blocks stand for can be read off the numbers of the blocks. -/
theorem exists_agree {news : Origins} (h : (news.map fun n => n.1.id.seq).Nodup) (other : Plan) :
    ∃ origin, Agree origin news ∧ ∀ seq, seq ∉ (news.map fun n => n.1.id.seq) →
      origin seq = other := by
  induction news with
  | nil => exact ⟨fun _ => other, fun n hn => (List.not_mem_nil hn).elim, fun _ _ => rfl⟩
  | cons n news ih =>
    obtain ⟨hn, hnews⟩ := List.nodup_cons.mp h
    obtain ⟨origin, hagree, hother⟩ := ih hnews
    refine ⟨fun seq => if seq = n.1.id.seq then n.2 else origin seq, ?_, ?_⟩
    · intro m hm
      rcases List.mem_cons.mp hm with rfl | hm
      · exact if_pos rfl
      · have hne : m.1.id.seq ≠ n.1.id.seq :=
          fun heq => hn (List.mem_map.mpr ⟨m, hm, heq⟩)
        exact (if_neg hne).trans (hagree m hm)
    · intro seq hseq
      rw [List.map_cons, List.mem_cons, not_or] at hseq
      exact (if_neg hseq.1).trans (hother seq hseq.2)

open BlockQuery.Partition in
theorem MasterPlan.exists_visit_of_ofPlan {catalog : Option Catalog} {query : QueryId}
    {child : Plan} {plan : MasterPlan} (h : ofPlan catalog query (.root child) = .ok plan) :
    ∃ top s, visit catalog child ⟨query, 1, []⟩ = .ok (top, s) ∧
      ofBlocks query (finish s top).2.blocks (finish s top).1 = .ok plan := by
  unfold ofPlan at h
  split at h
  · cases h
  next heq =>
    cases heq
    by_cases hscans : child.scans.isEmpty = true
    · rw [if_pos hscans] at h
      cases h
    · rw [if_neg hscans] at h
      obtain ⟨⟨top, s⟩, hvisit, hblocks⟩ := Except.bind_eq_ok.mp h
      exact ⟨top, s, hvisit, hblocks⟩
  next hroot => exact absurd rfl (hroot child)

open BlockQuery.Partition in
/-- An accepted plan of a query is made of the blocks into which the query is split. -/
theorem MasterPlan.exists_split {catalog : Option Catalog} {query : QueryId} {child : Plan}
    {plan : MasterPlan} (h : MasterPlan.ofPlan catalog query (.root child) = .ok plan) :
    ∃ blocks terminal all, Split child blocks terminal all ∧
      MasterPlan.ofBlocks query blocks terminal.id = .ok plan := by
  obtain ⟨top, s, hvisit, hblocks⟩ := exists_visit_of_ofPlan h
  obtain ⟨news, hnews⟩ := (visits_of_visit hvisit).exists_visited
  obtain ⟨terminal, all, hid, hsplit⟩ := hnews.finish rfl
  exact ⟨_, terminal, all, hsplit, hid ▸ hblocks⟩

open BlockQuery.Partition in
/-- The blocks of an accepted plan stand for the stored parts of the query, and
the terminal block for all of it. -/
theorem MasterPlan.exists_standsFor {catalog : Option Catalog} {query : QueryId} {child : Plan}
    {plan : MasterPlan} (h : MasterPlan.ofPlan catalog query (.root child) = .ok plan) :
    ∃ origin, plan.StandsFor child origin := by
  obtain ⟨blocks, terminal, all, hsplit, haccepted⟩ := exists_split h
  obtain ⟨hwell, _, hterminal, hperm⟩ := wellFormed_of_ofBlocks haccepted
  rw [hsplit.blocks_eq] at hperm
  have hmem : ∀ b, b ∈ plan.blocks ↔ b ∈ all.map Prod.fst ∨ b = terminal := by
    intro b
    rw [hperm.mem_iff, List.mem_append, List.mem_singleton]
  have hnodup := hwell.nodup_seqs
  rw [(hperm.map _).nodup_iff, List.map_append, List.nodup_append] at hnodup
  obtain ⟨hseqs, _, hdisjoint⟩ := hnodup
  rw [List.map_map] at hseqs hdisjoint
  obtain ⟨origin, hagree, hother⟩ := exists_agree hseqs child
  have hlast : origin terminal.id.seq = child := by
    apply hother
    exact fun hin => hdisjoint _ hin _ (List.mem_singleton_self _) rfl
  obtain ⟨hall, hstands⟩ := hsplit.stand origin hagree
  refine ⟨origin, ⟨hwell, by rw [hterminal]; exact hlast, ?_⟩, ?_⟩
  · intro b hb
    rcases (hmem b).mp hb with hb | rfl
    · obtain ⟨n, hn, rfl⟩ := List.mem_map.mp hb
      rw [hagree n hn]
      exact hall n hn
    · rw [hlast]
      exact hstands
  · intro part
    rw [← hsplit.origins, hterminal]
    constructor
    · intro hpart
      obtain ⟨n, hn, rfl⟩ := List.mem_map.mp hpart
      refine ⟨n.1, (hmem _).mpr (Or.inl (List.mem_map_of_mem hn)), ?_, hagree n hn⟩
      intro heq
      exact hdisjoint n.1.id.seq (List.mem_map.mpr ⟨n, hn, rfl⟩) _
        (List.mem_singleton_self _) (by rw [heq])
    · rintro ⟨b, hb, hne, rfl⟩
      rcases (hmem b).mp hb with hb | rfl
      · obtain ⟨n, hn, rfl⟩ := List.mem_map.mp hb
        exact List.mem_map.mpr ⟨n, hn, (hagree n hn).symm⟩
      · exact absurd rfl hne

end BlockQuery
