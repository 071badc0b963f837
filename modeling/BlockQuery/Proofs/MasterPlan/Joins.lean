import BlockQuery.Proofs.MasterPlan.Contraction
import BlockQuery.Proofs.MasterPlan.Resolution

/-!
# Joins of outputs

Where a query is split, each join gets a block of its own, which joins the outputs of its two inputs
and nothing else.  Both inputs are read by this block only, and the left one has the lower number.
-/

namespace BlockQuery

namespace Plan

/-- Whether a plan only scans the output of a block. -/
def IsScanOf (seq : UInt32) (p : Plan) : Prop := ∃ s : Scan, p = .scan s ∧ s.source = .block seq

/-- Whether two plans are joined in a plan. -/
def Joins (p : Plan) (type : JoinType) (left right : Plan) : Prop :=
  ∃ condition schema, .join type condition left right schema ∈ p.nodes

section Joins

variable {p input left right : Plan} {type : JoinType}

@[simp] theorem not_joins_scan (s : Scan) : ¬(scan s).Joins type left right := by
  simp [Joins, nodes]

@[simp] theorem joins_filter {predicate : Expr} :
    (filter predicate input).Joins type left right ↔ input.Joins type left right := by
  simp [Joins, nodes]

@[simp] theorem joins_project {targets : List Target} {schema : Schema} :
    (project targets input schema).Joins type left right ↔ input.Joins type left right := by
  simp [Joins, nodes]

@[simp] theorem joins_sort {specs : List SortSpec} :
    (sort specs input).Joins type left right ↔ input.Joins type left right := by
  simp [Joins, nodes]

@[simp] theorem joins_groupBy {keys : List String} {aggregates : List Aggregate}
    {schema : Schema} :
    (groupBy keys aggregates input schema).Joins type left right ↔
      input.Joins type left right := by
  simp [Joins, nodes]

theorem joins_join {type' : JoinType} {condition : Option Expr} {l r : Plan} {schema : Schema} :
    (join type' condition l r schema).Joins type left right ↔
      (type = type' ∧ left = l ∧ right = r) ∨ l.Joins type left right ∨
        r.Joins type left right := by
  simp only [Joins, nodes, List.mem_cons, List.mem_append, join.injEq, exists_or]
  simp

theorem not_joins_of_isRelay (h : p.isRelay = true) : ¬p.Joins type left right := by
  induction p with
  | scan => simp
  | filter _ _ ih => simpa using ih h
  | project _ _ _ ih => simpa using ih h
  | root | join | groupBy | sort | createTable => cases h

theorem joins_of_topBlocking? {top : Plan} (htop : p.topBlocking? = some top)
    (h : top.Joins type left right) : p.Joins type left right :=
  topBlocking?_induction (motive := fun q => q.Joins type left right) htop h
    (fun _ _ _ ih => joins_filter.mpr ih) fun _ _ _ ih => joins_project.mpr ih

theorem blockJoin?_of_topBlocking? {top : Plan} (htop : p.topBlocking? = some top) :
    p.blockJoin? = top.blockJoin? :=
  topBlocking?_induction (motive := fun q => q.blockJoin? = top.blockJoin?) htop rfl
    (fun _ _ _ ih => ih) fun _ _ _ ih => ih

/-- The join of a plan with one operation is found. -/
theorem Single.blockJoin?_eq (hsingle : p.Single) (h : p.Joins type left right) {l r : UInt32}
    (hl : left.IsScanOf l) (hr : right.IsScanOf r) : p.blockJoin? = some ⟨type, l, r⟩ := by
  obtain ⟨condition, schema, hnode⟩ := h
  obtain ⟨⟨_, _, _, _⟩, rfl, rfl⟩ := hl
  obtain ⟨⟨_, _, _, _⟩, rfl, rfl⟩ := hr
  rw [blockJoin?_of_topBlocking? (hsingle.top _ hnode rfl)]
  rfl

/-- What is found is a join. -/
theorem exists_joins_of_blockJoin? {found : BlockJoin} (h : p.blockJoin? = some found) :
    ∃ left right, p.Joins found.type left right := by
  obtain ⟨condition, l, r, schema, hnode, -⟩ := exists_join_of_blockJoin? h
  exact ⟨scan l, scan r, condition, schema, hnode⟩

end Joins

end Plan

namespace Partition

theorem isScanOf_scanOf (id : BlockId) (piece : Piece) : (scanOf id piece).IsScanOf id.seq :=
  ⟨_, rfl, rfl⟩

/-! ## Blocks of a split query -/

/-- Whether a plan has its inputs among some blocks in their order, and joins only these. -/
structure Wired (blocks : List Block) (inputs : List BlockId) (p : Plan) : Prop where
  sublist : inputs.Sublist (blocks.map Block.id)
  joins : ∀ type left right, p.Joins type left right →
    ∃ l r, inputs = [l, r] ∧ left.IsScanOf l.seq ∧ right.IsScanOf r.seq

/-- Whether the closed blocks are wired.  None of them is for everyone, and none is a relay. -/
structure Tidy (s : State) : Prop where
  wired : ∀ b ∈ s.blocks, Wired s.blocks b.inputs b.plan
  output : ∀ b ∈ s.blocks, b.output ≠ .broadcast
  relay : ∀ b ∈ s.blocks, b.plan.isRelay = false

/-- The open piece fits on top of the closed blocks, which are still tidy. -/
structure Tidied (s : State) (piece : Piece) (after : State) : Prop where
  front : s.blocks <+: after.blocks
  tidy : Tidy after
  wired : Wired after.blocks piece.inputs piece.plan
  relay : piece.plan.isRelay = false

variable {s after : State} {piece : Piece} {blocks blocks' : List Block} {inputs : List BlockId}
  {p : Plan}

theorem Wired.mono (h : Wired blocks inputs p) (hfront : blocks <+: blocks') :
    Wired blocks' inputs p :=
  ⟨h.sublist.trans (hfront.sublist.map _), h.joins⟩

theorem Tidied.close (h : Tidied s piece after) (output : Shuffle) (houtput : output ≠ .broadcast) :
    s.blocks <+: (close after piece output).2.blocks ∧ Tidy (close after piece output).2 := by
  have hfront : after.blocks <+: after.blocks ++ [closed after piece output] :=
    List.prefix_append _ _
  refine ⟨h.front.trans hfront, ?_, ?_, ?_⟩
  · simp only [close_eq, List.forall_mem_append, List.forall_mem_singleton]
    exact ⟨fun b hb => (h.tidy.wired b hb).mono hfront, h.wired.mono hfront⟩
  · simp only [close_eq, List.forall_mem_append, List.forall_mem_singleton]
    exact ⟨h.tidy.output, houtput⟩
  · simp only [close_eq, List.forall_mem_append, List.forall_mem_singleton]
    exact ⟨h.tidy.relay, h.relay⟩

theorem sublist_ids_close (s : State) (piece : Piece) (output : Shuffle) :
    [(closed s piece output).id].Sublist ((close s piece output).2.blocks.map Block.id) := by
  simp [close_eq]

/-- Each input is closed on top of what has been closed before. -/
theorem Visits.tidied (h : Visits none p s piece after) (hs : Tidy s) : Tidied s piece after := by
  induction h with
  | scan => exact ⟨List.prefix_rfl, hs, ⟨List.nil_sublist _, by simp⟩, rfl⟩
  | filter predicate below ih | project targets schema below ih =>
    have hbelow := ih hs
    exact ⟨hbelow.front, hbelow.tidy, ⟨hbelow.wired.sublist, by simpa using hbelow.wired.joins⟩,
      hbelow.relay⟩
  | sort specs below ih =>
    obtain ⟨hfront, htidy⟩ := (ih hs).close (.range specs) (by simp)
    exact ⟨hfront, htidy, ⟨sublist_ids_close _ _ _, by simp [scanOf, Plan.scanBlock]⟩, rfl⟩
  | groupBy keys aggregates schema below ih =>
    obtain ⟨hfront, htidy⟩ := (ih hs).close (.hash keys) (by simp)
    exact ⟨hfront, htidy, ⟨sublist_ids_close _ _ _, by simp [scanOf, Plan.scanBlock]⟩, rfl⟩
  | @join type condition schema left right s t u l r pairs keys belowLeft belowRight ihl ihr =>
    obtain ⟨hfrontl, htidyl⟩ := (ihl hs).close (.hash (pairs.map (·.1))) (by simp)
    have hright := ihr htidyl
    obtain ⟨hfrontr, htidyr⟩ := hright.close (.hash (pairs.map (·.2))) (by simp)
    refine ⟨hfrontl.trans hfrontr, htidyr, ⟨?_, ?_⟩, rfl⟩
    · have hleft := (sublist_ids_close t l _).trans (hright.front.sublist.map Block.id)
      simpa [close_eq, closed] using hleft.append_right [(closed u r (.hash (pairs.map (·.2)))).id]
    · intro type' left' right' hjoins
      rcases Plan.joins_join.mp hjoins with ⟨-, rfl, rfl⟩ | hjoins | hjoins
      · exact ⟨_, _, rfl, isScanOf_scanOf _ l, isScanOf_scanOf _ r⟩
      · exact absurd hjoins (Plan.not_joins_scan _)
      · exact absurd hjoins (Plan.not_joins_scan _)

theorem isRelay_of_detach {seq : UInt32} {hint : Option UInt64} {upper lower : Plan}
    (h : detach seq hint p = some (upper, lower)) :
    upper.isRelay = true ∧ lower.isRelay = false := by
  induction p generalizing upper with
  | root | scan | createTable => cases h
  | filter _ _ ih | project _ _ _ ih =>
    obtain ⟨⟨above, below⟩, hinput, heq⟩ := Option.map_eq_some_iff.mp h
    cases heq
    obtain ⟨hupper, hlower⟩ := ih hinput
    exact ⟨hupper, hlower⟩
  | join | sort | groupBy =>
    cases h
    exact ⟨rfl, rfl⟩

/-- The terminal block is closed on top of tidy ones, and is the only one that may be a relay. -/
theorem exists_terminal_of_finish (h : Tidied s piece after) :
    ∃ t top, finish after piece = close t top .none ∧ Tidy t ∧
      Wired t.blocks top.inputs top.plan := by
  have hwhole : ∃ t top, close after piece .none = close t top .none ∧ Tidy t ∧
      Wired t.blocks top.inputs top.plan := ⟨after, piece, rfl, h.tidy, h.wired⟩
  rw [finish]
  by_cases hblocking : piece.plan.isBlocking = true
  · rw [if_pos hblocking]
    exact hwhole
  · rw [if_neg hblocking]
    cases hdetach : detach after.nextSeq piece.rowHint piece.plan with
    | none => exact hwhole
    | some found =>
      obtain ⟨upper, lower⟩ := found
      obtain ⟨htop, -, -, -⟩ := detach_spec hdetach
      obtain ⟨hupper, hlower⟩ := isRelay_of_detach hdetach
      have hbelow : Tidied s { piece with plan := lower } after :=
        ⟨h.front, h.tidy, ⟨h.wired.sublist, fun type left right hjoins =>
          h.wired.joins type left right (Plan.joins_of_topBlocking? htop hjoins)⟩, hlower⟩
      have houtput : detachedOutput lower ≠ .broadcast := by cases lower <;> simp [detachedOutput]
      refine ⟨_, ⟨upper, [⟨after.query, after.nextSeq⟩], piece.rowHint⟩, rfl,
        (hbelow.close _ houtput).2, sublist_ids_close after _ _, ?_⟩
      exact fun type left right hjoins => absurd hjoins (Plan.not_joins_of_isRelay hupper)

/-! ## Numbers of blocks -/

/-- Numbers that do not repeat have not run over, except perhaps the last one. -/
theorem pairwise_numbers (query : QueryId) {n : ℕ}
    (h : ((List.range (n + 1)).map fun k => (⟨query, 1 + UInt32.ofNat k⟩ : BlockId)).Nodup) :
    ((List.range n).map fun k => (⟨query, 1 + UInt32.ofNat k⟩ : BlockId)).Pairwise
      fun i j => i.seq < j.seq := by
  have hle : n < 2 ^ 32 := by
    by_contra hgt
    have hsame : (0 : ℕ) = 2 ^ 32 :=
      List.inj_on_of_nodup_map h (List.mem_range.mpr (by omega)) (List.mem_range.mpr (by omega)) rfl
    cases hsame
  rw [List.pairwise_map]
  refine List.pairwise_lt_range.imp_of_mem ?_
  intro i j hi hj hlt
  rw [List.mem_range] at hi hj
  rw [UInt32.lt_iff_toNat_lt]
  simp only [UInt32.toNat_add, UInt32.toNat_ofNat', UInt32.toNat_one]
  omega

theorem Closes.pairwise_ids {query : QueryId} {unread : List BlockId} {b : Block}
    (h : Closes ⟨query, 1, []⟩ after (blocks ++ [b]) unread)
    (hids : ((blocks ++ [b]).map Block.id).Nodup) :
    (blocks.map Block.id).Pairwise fun i j => i.seq < j.seq := by
  have hnumbers := h.ids
  rw [hnumbers, List.length_append] at hids
  rw [List.length_append, List.length_singleton, List.range_succ, List.map_append,
    List.map_append] at hnumbers
  obtain ⟨hall, -⟩ := List.append_inj' hnumbers rfl
  rw [hall]
  exact pairwise_numbers query hids

/-- No block is read twice. -/
theorem Closes.eq_of_reads {s : State} {unread : List BlockId}
    (h : Closes s after blocks unread) (hids : (blocks.map Block.id).Nodup) {a b : Block}
    (ha : a ∈ blocks) (hb : b ∈ blocks) {i : BlockId} (hia : i ∈ a.inputs) (hib : i ∈ b.inputs) :
    a = b := by
  by_contra hne
  have hreads := (h.reads.nodup_iff.mpr hids).of_append_left
  obtain ⟨-, hdisjoint⟩ := List.nodup_flatMap.mp hreads
  have hsymm : Std.Symm (Function.onFun List.Disjoint Block.inputs) :=
    ⟨fun _ _ => List.Disjoint.symm⟩
  exact hdisjoint.forall ha hb hne hia hib

end Partition

/-- Whether a block joins two others, and these are all that it reads. -/
structure Block.Joins (b : Block) (type : JoinType) (l r : BlockId) : Prop where
  inputs : b.inputs = [l, r]
  found : b.plan.blockJoin? = some ⟨type, l.seq, r.seq⟩
  lt : l.seq < r.seq

namespace MasterPlan

/-- Whether each join is one of two blocks, no block is read twice, and only the terminal block may
be a relay. -/
structure Orderly (p : MasterPlan) : Prop where
  valid : Valid p.query p.blocks p.terminal
  joins : ∀ b ∈ p.blocks, ∀ type left right, b.plan.Joins type left right →
    ∃ l r, left.IsScanOf l.seq ∧ right.IsScanOf r.seq ∧ b.Joins type l r
  once : ∀ a ∈ p.blocks, ∀ b ∈ p.blocks, ∀ i ∈ a.inputs, i ∈ b.inputs → a = b
  relay : ∀ b ∈ p.blocks, b.plan.isRelay = true → b.id = p.terminal

open BlockQuery.Partition in
theorem orderly_of_ofPlan {query : QueryId} {child : Plan} {p : MasterPlan}
    (h : ofPlan none query (.root child) = .ok p) :
    p.Orderly ∧ ∀ b ∈ p.blocks, b.output ≠ .broadcast := by
  obtain ⟨top, s, hvisit, haccepted⟩ := exists_visit_of_ofPlan h
  obtain ⟨all, terminal, hid, hcover, hblocks, -⟩ := exists_cover_of_visit hvisit
  obtain ⟨t, last, hfinish, htidy, hlast⟩ :=
    exists_terminal_of_finish ((visits_of_visit hvisit).tidied ⟨by simp, by simp, by simp⟩)
  rw [hblocks, hid] at haccepted
  rw [hfinish, close_eq] at hblocks
  obtain ⟨hall, hterminal⟩ := List.append_inj' hblocks rfl
  obtain rfl := List.singleton_inj.mp hterminal
  have hcloses := hcover.closes
  rw [← hall] at hcloses haccepted
  obtain ⟨-, -, hp, hperm⟩ := wellFormed_of_ofBlocks haccepted
  have hvalid := valid_of_ofBlocks haccepted
  have hids := (hperm.map Block.id).nodup_iff.mp hvalid.ids_nodup
  have hmem : ∀ b ∈ p.blocks, b ∈ t.blocks ∨ b = closed t last .none := by
    intro b hb
    simpa using hperm.mem_iff.mp hb
  refine ⟨⟨hvalid, ?_, ?_, ?_⟩, ?_⟩
  · intro b hb type left right hjoins
    have hwired : Wired t.blocks b.inputs b.plan := by
      rcases hmem b hb with hb | rfl
      · exact htidy.wired b hb
      · exact hlast
    obtain ⟨l, r, hinputs, hl, hr⟩ := hwired.joins type left right hjoins
    have hsingle := hcloses.single b (hperm.mem_iff.mp hb)
    have hlt := (hcloses.pairwise_ids hids).sublist hwired.sublist
    rw [hinputs, List.pairwise_pair] at hlt
    exact ⟨l, r, hl, hr, hinputs, hsingle.blockJoin?_eq hjoins hl hr, hlt⟩
  · intro a ha b hb i hia hib
    exact hcloses.eq_of_reads hids (hperm.mem_iff.mp ha) (hperm.mem_iff.mp hb) hia hib
  · intro b hb hrelay
    rcases hmem b hb with hb | rfl
    · exact absurd hrelay (Bool.eq_false_iff.mp (htidy.relay b hb))
    · exact hp.symm
  · intro b hb
    rcases hmem b hb with hb | rfl
    · exact htidy.output b hb
    · simp [closed]

end MasterPlan

end BlockQuery
