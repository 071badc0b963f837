import BlockQuery.MasterPlan.Improvement
import BlockQuery.Proofs.Plan.Parts

/-!
# Nodes of plans

What a plan is made of: how many joins, sorts and groupings stand where in it,
and what its scans are replaced by.  Replacing scans twice is replacing them
once by what has been replaced itself, as with substitutions.
-/

namespace BlockQuery.Plan

/-- All nodes of a plan, from the top. -/
def nodes : Plan → List Plan
  | scan s => [scan s]
  | createTable table schema store path => [createTable table schema store path]
  | root child => root child :: child.nodes
  | filter predicate input => filter predicate input :: input.nodes
  | groupBy keys aggregates input schema => groupBy keys aggregates input schema :: input.nodes
  | sort specs input => sort specs input :: input.nodes
  | project targets input schema => project targets input schema :: input.nodes
  | join type condition left right schema =>
    join type condition left right schema :: (left.nodes ++ right.nodes)

/-- Whether a node may stand below the root of a query. -/
def InQuery : Plan → Prop
  | root _ | createTable .. => False
  | scan s => ∃ name, s.source = .table name
  | _ => True

/-- Whether a node is a filter or a projection. -/
def passesOn : Plan → Bool
  | filter .. | project .. => true
  | _ => false

/-- One block for the query, one for each input of a join, sort or grouping, and one more if filters
and projections are on top of these. -/
def blockCount (p : Plan) : ℕ :=
  1 + ((p.nodes.filter isBlocking).map fun n => n.children.length).sum +
    if p.passesOn = true ∧ ∃ n ∈ p.nodes, n.isBlocking = true then 1 else 0

/-- Whether there is at most one join, sort or grouping in a plan, with only filters and projections
above it. -/
structure Single (p : Plan) : Prop where
  count : p.blockingCount ≤ 1
  top : ∀ n ∈ p.nodes, n.isBlocking = true → p.topBlocking? = some n

variable {p q upper lower : Plan}

theorem mem_nodes_self (p : Plan) : p ∈ p.nodes := by
  cases p <;> exact List.mem_cons_self

theorem scans_ne_nil (h : ∀ n ∈ p.nodes, n.InQuery) : p.scans ≠ [] := by
  induction p with
  | scan => simp [scans]
  | root | createTable => exact False.elim (h _ (mem_nodes_self _))
  | join _ _ _ _ _ ihl _ =>
    have hleft := (List.forall_mem_append.mp (List.forall_mem_cons.mp h).2).1
    simp [scans, ihl hleft]
  | filter _ _ ih | project _ _ _ ih | sort _ _ ih | groupBy _ _ _ _ ih =>
    exact ih (List.forall_mem_cons.mp h).2

theorem scans_subset_of_mem_nodes (h : q ∈ p.nodes) : q.scans ⊆ p.scans := by
  induction p with
  | scan | createTable =>
    rw [List.mem_singleton.mp h]
    exact List.Subset.refl _
  | root _ ih | filter _ _ ih | groupBy _ _ _ _ ih | sort _ _ ih | project _ _ _ ih =>
    rcases List.mem_cons.mp h with rfl | h
    · exact List.Subset.refl _
    · exact ih h
  | join _ _ _ _ _ ihl ihr =>
    rcases List.mem_cons.mp h with rfl | h
    · exact List.Subset.refl _
    · rcases List.mem_append.mp h with h | h
      · exact List.subset_append_of_subset_left _ (ihl h)
      · exact List.subset_append_of_subset_right _ (ihr h)

/-! ## Counting blocks -/

theorem length_blockingInputs (p : Plan) : p.blockingInputs.length =
    ((p.nodes.filter isBlocking).map fun n => n.children.length).sum := by
  induction p with
  | scan | createTable => rfl
  | root _ ih | filter _ _ ih | project _ _ _ ih => simpa [nodes, blockingInputs, isBlocking] using ih
  | sort _ _ ih | groupBy _ _ _ _ ih =>
    rw [nodes, List.filter_cons_of_pos rfl, List.map_cons, List.sum_cons, ← ih]
    simp [blockingInputs, children, Nat.add_comm]
  | join _ _ _ _ _ ihl ihr =>
    rw [nodes, List.filter_cons_of_pos rfl, List.map_cons, List.sum_cons, List.filter_append,
      List.map_append, List.sum_append, ← ihl, ← ihr]
    simp only [blockingInputs, children, List.length_append, List.length_cons, List.length_nil]
    omega

theorem isSome_topBlocking?_iff (h : ∀ n ∈ p.nodes, n.InQuery) :
    p.topBlocking?.isSome = true ↔ ∃ n ∈ p.nodes, n.isBlocking = true := by
  induction p with
  | scan => simp [topBlocking?, nodes, isBlocking]
  | root | createTable => exact False.elim (h _ (mem_nodes_self _))
  | filter _ _ ih | project _ _ _ ih =>
    simp only [nodes, List.forall_mem_cons] at h
    simpa [topBlocking?, nodes, isBlocking] using ih h.2
  | sort | groupBy | join => simp [topBlocking?, nodes, isBlocking]

/-- What is stored of a query are the rows that blocks hand over. -/
theorem length_stored (h : ∀ n ∈ p.nodes, n.InQuery) : p.stored.length + 1 = p.blockCount := by
  have htop := isSome_topBlocking?_iff h
  rw [stored, List.length_append, length_blockingInputs, blockCount]
  cases p with
  | root | createTable => exact False.elim (h _ (mem_nodes_self _))
  | scan | join | sort | groupBy => simp [isBlocking, passesOn, topBlocking?, Nat.add_comm]
  | filter predicate input | project targets input schema =>
    simp only [← htop]
    cases hfound : topBlocking? _ <;> simp [isBlocking, passesOn, Nat.add_comm]

/-! ## Replaced scans -/

theorem replaceScans_congr {f g : Scan → Plan} (h : ∀ s ∈ p.scans, f s = g s) :
    p.replaceScans f = p.replaceScans g := by
  induction p with
  | scan s => exact h s (List.mem_singleton_self s)
  | createTable => rfl
  | join _ _ _ _ _ ihl ihr =>
    simp only [scans, List.forall_mem_append] at h
    simp [replaceScans, ihl h.1, ihr h.2]
  | root _ ih | filter _ _ ih | groupBy _ _ _ _ ih | sort _ _ ih | project _ _ _ ih =>
    simp [replaceScans, ih h]

theorem replaceScans_replaceScans (f g : Scan → Plan) (p : Plan) :
    (p.replaceScans f).replaceScans g = p.replaceScans fun s => (f s).replaceScans g := by
  induction p with
  | scan | createTable => rfl
  | join _ _ _ _ _ ihl ihr => simp [replaceScans, ihl, ihr]
  | root _ ih | filter _ _ ih | groupBy _ _ _ _ ih | sort _ _ ih | project _ _ _ ih =>
    simp [replaceScans, ih]

/-- A plan with other scans in it. -/
def mapScans (g : Scan → Scan) : Plan → Plan := replaceScans fun s => scan (g s)

section MapScans

variable {g : Scan → Scan}

theorem nodes_mapScans (g : Scan → Scan) (p : Plan) :
    (p.mapScans g).nodes = p.nodes.map (mapScans g) := by
  induction p with
  | scan | createTable => rfl
  | join _ _ _ _ _ ihl ihr =>
    simp only [mapScans] at ihl ihr
    simp [mapScans, replaceScans, nodes, ihl, ihr]
  | root _ ih | filter _ _ ih | groupBy _ _ _ _ ih | sort _ _ ih | project _ _ _ ih =>
    simp only [mapScans] at ih
    simp [mapScans, replaceScans, nodes, ih]

theorem scans_mapScans (g : Scan → Scan) (p : Plan) : (p.mapScans g).scans = p.scans.map g := by
  induction p with
  | scan | createTable => rfl
  | join _ _ _ _ _ ihl ihr =>
    simp only [mapScans] at ihl ihr
    simp [mapScans, replaceScans, scans, ihl, ihr]
  | root _ ih | filter _ _ ih | groupBy _ _ _ _ ih | sort _ _ ih | project _ _ _ ih => exact ih

theorem schema_mapScans (h : ∀ s, (g s).schema = s.schema) (p : Plan) :
    (p.mapScans g).schema = p.schema := by
  induction p with
  | scan s => exact h s
  | createTable | join | groupBy | project => rfl
  | root _ ih | filter _ _ ih | sort _ _ ih => exact ih

theorem inQuery_mapScans (h : ∀ s, (g s).source = s.source) (p : Plan) :
    (p.mapScans g).InQuery ↔ p.InQuery := by
  cases p with
  | scan s => simp [mapScans, replaceScans, InQuery, h]
  | root | createTable | join | groupBy | project | filter | sort => rfl

theorem forall_inQuery_mapScans (h : ∀ s, (g s).source = s.source) (p : Plan) :
    (∀ n ∈ (p.mapScans g).nodes, n.InQuery) ↔ ∀ n ∈ p.nodes, n.InQuery := by
  simp [nodes_mapScans, inQuery_mapScans h]

theorem isBlocking_mapScans (g : Scan → Scan) (p : Plan) :
    (p.mapScans g).isBlocking = p.isBlocking := by
  cases p <;> rfl

theorem length_children_mapScans (g : Scan → Scan) (p : Plan) :
    (p.mapScans g).children.length = p.children.length := by
  cases p <;> rfl

theorem blockCount_mapScans (g : Scan → Scan) (p : Plan) :
    (p.mapScans g).blockCount = p.blockCount := by
  have hpasses : (p.mapScans g).passesOn = p.passesOn := by cases p <;> rfl
  simp [blockCount, nodes_mapScans, List.filter_map, Function.comp_def, isBlocking_mapScans,
    length_children_mapScans, hpasses]

end MapScans

/-- A plan with the scans of outputs replaced by what the outputs come from. -/
def filled (origin : UInt32 → Plan) : Plan → Plan :=
  replaceScans fun s => match s.source with
    | .block seq => origin seq
    | .table _ => scan s

theorem topBlocking?_replaceScans {top : Plan} (h : p.topBlocking? = some top)
    (f : Scan → Plan) : (p.replaceScans f).topBlocking? = some (top.replaceScans f) := by
  induction p with
  | root | scan | createTable => cases h
  | filter _ _ ih | project _ _ _ ih => exact ih h
  | join | sort | groupBy =>
    cases h
    rfl

theorem mem_scannedBlocks_of_scan {s : Scan} {seq : UInt32} (hs : s ∈ p.scans)
    (hsource : s.source = .block seq) : seq ∈ p.scannedBlocks := by
  apply List.mem_filterMap.mpr
  exact ⟨s, hs, by simp [hsource]⟩

/-- A join of blocks that is found is a node of the plan and reads the two blocks. -/
theorem exists_join_of_blockJoin? {found : BlockJoin} (h : p.blockJoin? = some found) :
    ∃ condition l r schema, .join found.type condition (.scan l) (.scan r) schema ∈ p.nodes ∧
      l.source = .block found.left ∧ r.source = .block found.right := by
  induction p with
  | scan | createTable => cases h
  | root _ ih | filter _ _ ih | groupBy _ _ _ _ ih | sort _ _ ih | project _ _ _ ih =>
    obtain ⟨condition, l, r, schema, hnode, hsources⟩ := ih h
    exact ⟨condition, l, r, schema, List.mem_cons_of_mem _ hnode, hsources⟩
  | join type condition left right schema ihl ihr =>
    rw [blockJoin?, Option.orElse_eq_some, Option.orElse_eq_some] at h
    rcases h with hhere | ⟨-, hleft | ⟨-, hright⟩⟩
    · unfold BlockJoin.of? at hhere
      split at hhere
      · cases hhere
        exact ⟨condition, _, _, schema, List.mem_cons_self, rfl, rfl⟩
      · cases hhere
    · obtain ⟨condition', l, r, schema', hnode, hsources⟩ := ihl hleft
      exact ⟨condition', l, r, schema',
        List.mem_cons_of_mem _ (List.mem_append_left _ hnode), hsources⟩
    · obtain ⟨condition', l, r, schema', hnode, hsources⟩ := ihr hright
      exact ⟨condition', l, r, schema',
        List.mem_cons_of_mem _ (List.mem_append_right _ hnode), hsources⟩

theorem mem_scannedBlocks_of_blockJoin? {found : BlockJoin} (h : p.blockJoin? = some found) :
    found.left ∈ p.scannedBlocks ∧ found.right ∈ p.scannedBlocks := by
  obtain ⟨_, l, r, _, hnode, hl, hr⟩ := exists_join_of_blockJoin? h
  have hscans := scans_subset_of_mem_nodes hnode
  exact ⟨mem_scannedBlocks_of_scan (hscans (by simp [scans])) hl,
    mem_scannedBlocks_of_scan (hscans (by simp [scans])) hr⟩

/-! ## Plans with one operation -/

theorem Single.filter (h : p.Single) (predicate : Expr) : (filter predicate p).Single where
  count := h.count
  top n hn hblocking := by
    rcases List.mem_cons.mp hn with rfl | hn
    · cases hblocking
    · exact h.top n hn hblocking

theorem Single.project (h : p.Single) (targets : List Target) (schema : Schema) :
    (project targets p schema).Single where
  count := h.count
  top n hn hblocking := by
    rcases List.mem_cons.mp hn with rfl | hn
    · cases hblocking
    · exact h.top n hn hblocking

theorem single_scan (s : Scan) : (scan s).Single :=
  ⟨by simp [blockingCount], by simp [nodes, isBlocking]⟩

theorem single_sort (specs : List SortSpec) (s : Scan) : (sort specs (scan s)).Single :=
  ⟨by simp [blockingCount], by simp [nodes, isBlocking, topBlocking?]⟩

theorem single_groupBy (keys : List String) (aggregates : List Aggregate) (s : Scan)
    (schema : Schema) : (groupBy keys aggregates (scan s) schema).Single :=
  ⟨by simp [blockingCount], by simp [nodes, isBlocking, topBlocking?]⟩

theorem single_join (type : JoinType) (condition : Option Expr) (l r : Scan) (schema : Schema) :
    (join type condition (scan l) (scan r) schema).Single :=
  ⟨by simp [blockingCount], by simp [nodes, isBlocking, topBlocking?]⟩

/-- The operation alone, without what is above it. -/
theorem Single.of_topBlocking? {top : Plan} (h : p.Single) (htop : p.topBlocking? = some top) :
    top.Single := by
  induction p with
  | root | scan | createTable => cases htop
  | filter _ _ ih | project _ _ _ ih =>
    refine ih ⟨h.count, fun n hn => ?_⟩ htop
    exact h.top n (List.mem_cons_of_mem _ hn)
  | join | sort | groupBy =>
    cases htop
    exact h

theorem scannedBlocks_of_topBlocking? {top : Plan} (htop : p.topBlocking? = some top) :
    top.scannedBlocks = p.scannedBlocks :=
  topBlocking?_induction (motive := fun q => top.scannedBlocks = q.scannedBlocks) htop rfl
    (fun _ _ _ ih => ih) fun _ _ _ ih => ih

end BlockQuery.Plan
