import BlockQuery.MasterPlan.Improvement
import BlockQuery.Proofs.Engine.Run
import BlockQuery.Proofs.Plan.Width

/-!
# Improved plans

Each rule leads from an accepted plan to one whose blocks stand for parts of
the same query.  Fusion drops one part: the block that has read it is put on
top of the block that gave it.  Its rows are as wide as they should be without
being looked at, since they come out of an operation on outputs.
-/

namespace BlockQuery

/-! ## Replaced scans -/

namespace Plan

theorem replaceScans_scan (p : Plan) : p.replaceScans scan = p := by
  induction p with
  | scan | createTable => rfl
  | join _ _ _ _ _ ihl ihr => rw [replaceScans, ihl, ihr]
  | root _ ih | filter _ _ ih | groupBy _ _ _ _ ih | sort _ _ ih | project _ _ _ ih =>
    rw [replaceScans, ih]

/-- Plans over outputs stay so if what replaces the scans of outputs is over outputs. -/
theorem TableFree.replaceScans {p : Plan} (h : p.TableFree) {f : Scan → Plan}
    (hf : ∀ s, (∃ seq, s.source = .block seq) → (f s).TableFree) : (p.replaceScans f).TableFree := by
  induction p with
  | scan s => exact hf s h
  | join _ _ _ _ _ ihl ihr => exact ⟨ihl h.1, ihr h.2⟩
  | root _ ih | filter _ _ ih | groupBy _ _ _ _ ih | sort _ _ ih | project _ _ _ ih => exact ih h
  | createTable => exact trivial

theorem isRelay_scan {s : Scan} : (scan s).isRelay = true ↔ ∃ seq, s.source = .block seq := by
  rw [isRelay]
  cases s.source with
  | block seq => exact ⟨fun _ => ⟨seq, rfl⟩, fun _ => rfl⟩
  | table name => exact ⟨nofun, nofun⟩

theorem isRelay_of_redirect {p : Plan} {source target : UInt32}
    (h : (p.replaceScans fun s =>
      .scan (if s.source = .block source then { s with source := .block target } else s)).isRelay =
        true) : p.isRelay = true := by
  induction p with
  | scan s =>
    by_cases hsource : s.source = .block source
    · exact isRelay_scan.mpr ⟨source, hsource⟩
    · rwa [replaceScans, if_neg hsource] at h
  | filter _ _ ih | project _ _ _ ih => exact ih h
  | root | join | groupBy | sort | createTable => cases h

/-- What filters and projections keep holds of a relay with a plan put into it if it holds of this
plan. -/
theorem inlined_induction {motive : Plan → Prop} {q inner : Plan} {seq : UInt32}
    (hrelay : q.isRelay = true) (honly : ∀ s ∈ q.scannedBlocks, s = seq) (hinner : motive inner)
    (hfilter : ∀ predicate p, motive p → motive (.filter predicate p))
    (hproject : ∀ targets schema p, motive p → motive (.project targets p schema)) :
    motive (MasterPlan.inlined seq inner q) := by
  induction q with
  | scan s =>
    obtain ⟨n, hn⟩ := isRelay_scan.mp hrelay
    have hseq : n = seq := honly n (by simp [scannedBlocks, scans, hn])
    rw [MasterPlan.inlined, replaceScans, if_pos (hseq ▸ hn)]
    cases s.filter with
    | none => exact hinner
    | some predicate => exact hfilter predicate inner hinner
  | filter predicate _ ih => exact hfilter predicate _ (ih hrelay honly)
  | project targets _ schema ih => exact hproject targets schema _ (ih hrelay honly)
  | root | join | groupBy | sort | createTable => cases hrelay

theorem isRelay_inlined {q : Plan} {seq : UInt32} (hrelay : q.isRelay = true)
    (honly : ∀ s ∈ q.scannedBlocks, s = seq) (inner : Plan) :
    (MasterPlan.inlined seq inner q).isRelay = inner.isRelay :=
  inlined_induction (motive := fun p => p.isRelay = inner.isRelay) hrelay honly rfl
    (fun _ _ hp => hp) fun _ _ _ hp => hp

theorem tableFree_of_isRelay {p : Plan} (h : p.isRelay = true) : p.TableFree := by
  induction p with
  | scan s => exact isRelay_scan.mp h
  | filter _ _ ih | project _ _ _ ih => exact ih h
  | root | join | groupBy | sort | createTable => cases h

end Plan

namespace Stands

variable {origin origin' : UInt32 → Plan} {q p inner : Plan}

/-- What takes the place of the scans of outputs has to stand for the same as these. -/
theorem replaceScans (h : Stands origin q p) {f : Scan → Plan}
    (htable : ∀ s name, s.source = .table name → f s = .scan s)
    (houtput : ∀ seq ∈ q.scannedBlocks, ∀ hint,
      Stands origin' ((Plan.scanBlock seq (origin seq).schema hint).replaceScans f) (origin seq)) :
    Stands origin' (q.replaceScans f) p := by
  induction h with
  | table name schema condition hint hint' =>
    rw [Plan.replaceScans, htable _ name rfl]
    exact table name schema condition hint hint'
  | output seq hint => exact houtput seq (mem_scannedBlocks_scanBlock seq _ hint) hint
  | filterTable predicate name schema condition hint hint' =>
    rw [Plan.replaceScans, Plan.replaceScans, htable _ name rfl]
    exact filterTable predicate name schema condition hint hint'
  | filter predicate hscan _ ih => exact filter predicate hscan (ih houtput)
  | project targets schema _ ih => exact project targets schema (ih houtput)
  | join type condition schema _ _ ihl ihr =>
    rw [scannedBlocks_join] at houtput
    exact join type condition schema (ihl fun s hs => houtput s (List.mem_append_left _ hs))
      (ihr fun s hs => houtput s (List.mem_append_right _ hs))
  | sort specs _ ih => exact sort specs (ih houtput)
  | groupBy keys aggregates schema _ ih => exact groupBy keys aggregates schema (ih houtput)

/-- Only the origins of the outputs that are read matter. -/
theorem congr (h : Stands origin q p) (hsame : ∀ seq ∈ q.scannedBlocks, origin' seq = origin seq) :
    Stands origin' q p := by
  rw [← q.replaceScans_scan]
  refine h.replaceScans (fun _ _ _ => rfl) fun seq hseq hint => ?_
  rw [← hsame seq hseq]
  exact output seq hint

/-- The scans of one output may go to another one with the same origin. -/
theorem redirect (h : Stands origin q p) {source target : UInt32}
    (htarget : origin' target = origin source)
    (hsame : ∀ seq ∈ q.scannedBlocks, seq ≠ source → origin' seq = origin seq) :
    Stands origin' (q.replaceScans fun s =>
      .scan (if s.source = .block source then { s with source := .block target } else s)) p := by
  refine h.replaceScans (fun s name hs => by rw [if_neg (by simp [hs])]) fun seq hseq hint => ?_
  by_cases heq : seq = source
  · subst heq
    rw [Plan.scanBlock, Plan.replaceScans, if_pos rfl, ← htarget]
    exact output target hint
  · have hne : ¬ScanSource.block seq = .block source := fun h => heq (ScanSource.block.inj h)
    rw [Plan.scanBlock, Plan.replaceScans, if_neg hne, ← hsame seq hseq heq]
    exact output seq hint

/-- A plan that scans one output only stands for the same if the plan behind this output is put
into it. -/
theorem inlined (h : Stands origin q p) {seq : UInt32} (honly : ∀ s ∈ q.scannedBlocks, s = seq)
    (hinner : Stands origin' inner (origin seq)) :
    Stands origin' (MasterPlan.inlined seq inner q) p := by
  refine h.replaceScans (fun s name hs => by rw [if_neg (by simp [hs])]) fun seq' hseq hint => ?_
  obtain rfl := honly seq' hseq
  rw [Plan.scanBlock, Plan.replaceScans, if_pos rfl]
  exact hinner

variable {ctx : TaskContext} {disk : Disk}

/-- Where a plan that only filters and projects one output has a relation, the output has one. -/
theorem relation?_of_isRelay (h : Stands origin q p) {seq : UInt32} (hrelay : q.isRelay = true)
    (honly : ∀ s ∈ q.scannedBlocks, s = seq) {r : Relation}
    (hr : p.relation? ctx disk = some r) : ∃ r', (origin seq).relation? ctx disk = some r' := by
  induction h generalizing r with
  | table | filterTable | join | sort | groupBy => cases hrelay
  | output seq' hint =>
    obtain rfl := honly seq' (mem_scannedBlocks_scanBlock seq' _ hint)
    exact ⟨r, hr⟩
  | filter predicate hscan _ ih =>
    rw [Plan.relation?_filter _ _ _ hscan] at hr
    obtain ⟨r', hr', -⟩ := Option.bind_eq_some_iff.mp hr
    exact ih hrelay honly hr'
  | project targets schema _ ih =>
    rw [Plan.relation?_project] at hr
    obtain ⟨r', hr', -⟩ := Option.bind_eq_some_iff.mp hr
    exact ih hrelay honly hr'

/-- What a plan over outputs stands for has rows that are wide enough if the outputs have. -/
theorem wide_of_tableFree (h : Stands origin q p) (hfree : q.TableFree)
    (hwide : ∀ seq ∈ q.scannedBlocks, ∀ r, (origin seq).relation? ctx disk = some r → r.Wide)
    {r : Relation} (hr : p.relation? ctx disk = some r) : r.Wide := by
  induction h generalizing r with
  | table | filterTable =>
    obtain ⟨seq, hseq⟩ := hfree
    cases hseq
  | output seq hint => exact hwide seq (mem_scannedBlocks_scanBlock seq _ hint) r hr
  | filter predicate hscan _ ih =>
    rw [Plan.relation?_filter _ _ _ hscan] at hr
    obtain ⟨r', hr', hselect⟩ := Option.bind_eq_some_iff.mp hr
    exact (ih hfree hwide hr').select? hselect
  | project targets schema _ _ =>
    rw [Plan.relation?_project] at hr
    obtain ⟨r', -, hproject⟩ := Option.bind_eq_some_iff.mp hr
    exact Relation.wide_of_project? hproject
  | join type condition schema _ _ ihl ihr =>
    rw [Plan.relation?_join] at hr
    obtain ⟨l, hl, hrest⟩ := Option.bind_eq_some_iff.mp hr
    obtain ⟨r', hr', hjoin⟩ := Option.bind_eq_some_iff.mp hrest
    rw [scannedBlocks_join] at hwide
    have hleft := ihl hfree.1 (fun s hs => hwide s (List.mem_append_left _ hs)) hl
    have hright := ihr hfree.2 (fun s hs => hwide s (List.mem_append_right _ hs)) hr'
    exact hleft.join? hright hjoin
  | sort specs _ ih =>
    rw [Plan.relation?_sort] at hr
    obtain ⟨r', hr', hsort⟩ := Option.bind_eq_some_iff.mp hr
    exact (ih hfree hwide hr').sort? hsort
  | groupBy keys aggregates schema _ _ =>
    rw [Plan.relation?_groupBy] at hr
    obtain ⟨r', -, hgroup⟩ := Option.bind_eq_some_iff.mp hr
    exact Relation.wide_of_group? hgroup

end Stands

namespace MasterPlan

open BlockQuery.Worker (Passes)

/-- Whether a plan serves for another one: its blocks stand for parts for which blocks of the other
one stand, and all of them pass just if all blocks of the other one do. -/
structure Refines (query : Plan) (p : MasterPlan) (origin : UInt32 → Plan) (p' : MasterPlan)
    (origin' : UInt32 → Plan) : Prop where
  represents : p'.Represents query origin'
  relayed : p'.Relayed
  parts : ∀ b ∈ p'.blocks, ∃ a ∈ p.blocks, origin' b.id.seq = origin a.id.seq
  passes : ∀ ctx disk, (∀ b ∈ p'.blocks, Passes origin' ctx disk b) ↔
    ∀ b ∈ p.blocks, Passes origin ctx disk b

section Refines

variable {query : Plan} {p p' p'' : MasterPlan} {origin origin' origin'' : UInt32 → Plan}

theorem Refines.refl (h : p.Represents query origin) (hrelayed : p.Relayed) :
    Refines query p origin p origin :=
  ⟨h, hrelayed, fun b hb => ⟨b, hb, rfl⟩, fun _ _ => Iff.rfl⟩

theorem Refines.trans (h : Refines query p origin p' origin')
    (h' : Refines query p' origin' p'' origin'') : Refines query p origin p'' origin'' := by
  refine ⟨h'.represents, h'.relayed, ?_, fun ctx disk => (h'.passes ctx disk).trans (h.passes ctx disk)⟩
  intro c hc
  obtain ⟨b, hb, hcb⟩ := h'.parts c hc
  obtain ⟨a, ha, hba⟩ := h.parts b hb
  exact ⟨a, ha, hcb.trans hba⟩

/-- A block passes if it has a relation and its inputs have rows that are wide enough. -/
theorem WellFormed.passes_iff (h : p.WellFormed) {b : Block} (hb : b ∈ p.blocks)
    (origin : UInt32 → Plan) (ctx : TaskContext) (disk : Disk) : Passes origin ctx disk b ↔
      (∃ r, (origin b.id.seq).relation? ctx disk = some r) ∧
        ∀ i ∈ b.inputs, ∀ r, (origin i.seq).relation? ctx disk = some r → r.Wide := by
  have hscanned : ∀ seq, seq ∈ b.plan.scannedBlocks ↔ ∃ i ∈ b.inputs, i.seq = seq := by
    intro seq
    rw [h.scanned b hb seq, List.mem_map]
  simp only [Passes, hscanned]
  constructor
  · rintro ⟨hsome, hwide⟩
    exact ⟨hsome, fun i hi => hwide i.seq ⟨i, hi, rfl⟩⟩
  · rintro ⟨hsome, hwide⟩
    refine ⟨hsome, ?_⟩
    rintro seq ⟨i, hi, rfl⟩
    exact hwide i hi

end Refines

/-! ## Fusion -/

/-- Whether a block only passes on the rows of another one that nobody else reads. -/
structure Fusion (p : MasterPlan) (parent child : Block) : Prop where
  parent_mem : parent ∈ p.blocks
  child_mem : child ∈ p.blocks
  inputs : parent.inputs = [child.id]
  relay : parent.plan.isRelay = true
  onlyReader : ∀ b ∈ p.blocks, child.id ∈ b.inputs → b = parent

/-- What becomes of a block other than the parent. -/
def afterFusion (parent child b : Block) : Block :=
  if b.id = child.id then fused parent child
  else if b.inputs.contains parent.id then redirected parent.id child.id b
  else b

/-- The block that a block reads instead. -/
def movedInput (parent child : Block) (i : BlockId) : BlockId :=
  if i = parent.id then child.id else i

/-- The child stands for what the parent has stood for. -/
def fusedOrigin (origin : UInt32 → Plan) (parent child : Block) (seq : UInt32) : Plan :=
  if seq = child.id.seq then origin parent.id.seq else origin seq

section Fuse

variable {query : Plan} {p p' : MasterPlan} {origin : UInt32 → Plan} {parent child b : Block}

/-- The blocks of a plan after a fusion. -/
def fusedBlocks (p : MasterPlan) (parent child : Block) : List Block :=
  (p.blocks.filter fun b => b.id ≠ parent.id).map (afterFusion parent child)

/-- The terminal block of a plan after a fusion. -/
def fusedTerminal (p : MasterPlan) (parent child : Block) : BlockId :=
  if p.terminal = parent.id then child.id else p.terminal

theorem fusion_of_isFusible (hparent : parent ∈ p.blocks) (hfusible : p.isFusible parent = true) :
    ∃ input, parent.inputs = [input] ∧
      ∀ child, p.block? input = some child → Fusion p parent child := by
  rw [isFusible] at hfusible
  split at hfusible
  next input hinputs =>
    refine ⟨input, hinputs, fun child hchild => ?_⟩
    rw [Bool.and_eq_true, beq_iff_eq] at hfusible
    obtain ⟨hrelay, hreaders⟩ := hfusible
    have hid : child.id = input := by simpa using List.find?_some hchild
    subst hid
    refine ⟨hparent, List.mem_of_find?_eq_some hchild, hinputs, hrelay, ?_⟩
    rw [readers, Block.readers, List.length_map] at hreaders
    obtain ⟨reader, hreader⟩ := List.length_eq_one_iff.mp hreaders
    have hall : ∀ b ∈ p.blocks, child.id ∈ b.inputs → b = reader := by
      intro b hb hread
      have hmem : b ∈ p.blocks.filter (·.inputs.contains child.id) :=
        List.mem_filter.mpr ⟨hb, List.contains_iff_mem.mpr hread⟩
      rwa [hreader, List.mem_singleton] at hmem
    have hsame := hall parent hparent (hinputs ▸ List.mem_singleton_self _)
    exact fun b hb hread => (hall b hb hread).trans hsame.symm
  next => cases hfusible

/-- What fusion can come to. -/
theorem fuse_cases (p : MasterPlan) : p.fuse = .ok none ∨
    (∃ parent child, Fusion p parent child ∧
      p.fuse = (ofBlocks p.query (p.fusedBlocks parent child) (p.fusedTerminal parent child)).map
        some) ∨
    ∃ parent ∈ p.blocks, ∃ input ∈ parent.inputs, p.block? input = none ∧
      p.fuse = .error (.planning (some parent.id) (.fusedInput input)) := by
  rw [fuse]
  cases hfind : p.blocks.find? p.isFusible with
  | none => exact Or.inl rfl
  | some parent =>
    have hparent := List.mem_of_find?_eq_some hfind
    obtain ⟨input, hinputs, hfusion⟩ := fusion_of_isFusible hparent (List.find?_some hfind)
    simp only [hinputs, List.head?_cons]
    cases hchild : p.block? input with
    | none =>
      exact Or.inr (Or.inr ⟨parent, hparent, input, by simp [hinputs], hchild, rfl⟩)
    | some child =>
      have hid : child.id = input := by simpa using List.find?_some hchild
      subst hid
      exact Or.inr (Or.inl ⟨parent, child, hfusion child hchild, rfl⟩)

theorem fusion_of_fuse (h : p.fuse = .ok (some p')) : ∃ parent child, Fusion p parent child ∧
    ofBlocks p.query (p.fusedBlocks parent child) (p.fusedTerminal parent child) = .ok p' := by
  rcases fuse_cases p with hnone | ⟨parent, child, hfusion, heq⟩ | ⟨_, _, _, _, _, herror⟩
  · cases hnone.symm.trans h
  · obtain ⟨p'', hblocks, hsome⟩ := Except.map_eq_ok.mp (heq.symm.trans h)
    cases hsome
    exact ⟨parent, child, hfusion, hblocks⟩
  · cases herror.symm.trans h

theorem afterFusion_child (parent child : Block) :
    afterFusion parent child child = fused parent child := if_pos rfl

theorem id_afterFusion (parent child b : Block) : (afterFusion parent child b).id = b.id := by
  rw [afterFusion]
  split
  next heq => exact heq.symm
  next => split <;> rfl

theorem inputs_afterFusion (hne : b.id ≠ child.id) :
    (afterFusion parent child b).inputs = b.inputs.map (movedInput parent child) := by
  rw [afterFusion, if_neg hne]
  split
  next => rfl
  next hnot =>
    rw [List.contains_iff_mem] at hnot
    have hsame : ∀ i ∈ b.inputs, movedInput parent child i = id i := by
      intro i hi
      exact if_neg fun heq : i = parent.id => hnot (heq ▸ hi)
    rw [List.map_congr_left hsame, List.map_id]

namespace Fusion

theorem child_ne (h : Fusion p parent child) (hwell : p.WellFormed) : child.id ≠ parent.id := by
  intro heq
  apply hwell.notSelf parent h.parent_mem
  rw [h.inputs, heq]
  exact List.mem_singleton_self _

theorem onlyScan (h : Fusion p parent child) (hwell : p.WellFormed) :
    ∀ seq ∈ parent.plan.scannedBlocks, seq = child.id.seq := by
  intro seq hseq
  have hread := (hwell.scanned parent h.parent_mem seq).mp hseq
  rwa [h.inputs, List.map_singleton, List.mem_singleton] at hread

/-- Other blocks stand for what they have stood for. -/
theorem fusedOrigin_of_ne (h : Fusion p parent child) (hwell : p.WellFormed) (hb : b ∈ p.blocks)
    (hne : b.id ≠ child.id) (origin : UInt32 → Plan) :
    fusedOrigin origin parent child b.id.seq = origin b.id.seq :=
  if_neg fun hseq => hne (congrArg Block.id (hwell.eq_of_seq hb h.child_mem hseq))

theorem fusedOrigin_child (origin : UInt32 → Plan) (parent child : Block) :
    fusedOrigin origin parent child child.id.seq = origin parent.id.seq := if_pos rfl

/-- An input of another block than the parent stands, where it has moved, for what it has stood
for. -/
theorem fusedOrigin_input (h : Fusion p parent child) (hwell : p.WellFormed) (hb : b ∈ p.blocks)
    (hne : b.id ≠ parent.id) {i : BlockId} (hi : i ∈ b.inputs) (origin : UInt32 → Plan) :
    fusedOrigin origin parent child (movedInput parent child i).seq = origin i.seq := by
  by_cases hparent : i = parent.id
  · rw [movedInput, if_pos hparent, fusedOrigin_child, hparent]
  · rw [movedInput, if_neg hparent]
    obtain ⟨c, hc, rfl⟩ := List.mem_map.mp (hwell.inputs b hb i hi)
    apply h.fusedOrigin_of_ne hwell hc
    intro heq
    rw [heq] at hi
    exact hne (congrArg Block.id (h.onlyReader b hb hi))

/-- The inputs of the child do not move. -/
theorem fusedOrigin_childInput (h : Fusion p parent child) (hwell : p.WellFormed) {i : BlockId}
    (hi : i ∈ child.inputs) (origin : UInt32 → Plan) :
    fusedOrigin origin parent child i.seq = origin i.seq := by
  obtain ⟨c, hc, rfl⟩ := List.mem_map.mp (hwell.inputs child h.child_mem i hi)
  apply h.fusedOrigin_of_ne hwell hc
  intro heq
  rw [heq] at hi
  exact hwell.notSelf child h.child_mem hi

/-- Behind a fusion a block stands for a part of the query again. -/
theorem stands (h : Fusion p parent child) (hrepresents : p.Represents query origin)
    (hb : b ∈ p.blocks) (hne : b.id ≠ parent.id) :
    Stands (fusedOrigin origin parent child) (afterFusion parent child b).plan
      (fusedOrigin origin parent child b.id.seq) := by
  have hwell := hrepresents.wellFormed
  have hstands := hrepresents.stands b hb
  by_cases hchild : b.id = child.id
  · obtain rfl := hwell.distinct.eq_of_id hb h.child_mem hchild
    have hinner : Stands (fusedOrigin origin parent b) b.plan (origin b.id.seq) := by
      apply hstands.congr
      intro seq hseq
      obtain ⟨i, hi, rfl⟩ := List.mem_map.mp ((hwell.scanned b hb seq).mp hseq)
      exact h.fusedOrigin_childInput hwell hi origin
    rw [afterFusion_child, fusedOrigin_child]
    exact (hrepresents.stands parent h.parent_mem).inlined (h.onlyScan hwell) hinner
  · have hinput : ∀ seq ∈ b.plan.scannedBlocks, seq ≠ parent.id.seq →
        fusedOrigin origin parent child seq = origin seq := by
      intro seq hseq hneseq
      obtain ⟨i, hi, rfl⟩ := List.mem_map.mp ((hwell.scanned b hb seq).mp hseq)
      have hmoved := h.fusedOrigin_input hwell hb hne hi origin
      rwa [movedInput, if_neg fun heq : i = parent.id => hneseq (congrArg BlockId.seq heq)]
        at hmoved
    rw [h.fusedOrigin_of_ne hwell hb hchild, afterFusion, if_neg hchild]
    split
    next => exact hstands.redirect (fusedOrigin_child origin parent child) hinput
    next hnot =>
      apply hstands.congr
      intro seq hseq
      apply hinput seq hseq
      rintro rfl
      obtain ⟨i, hi, hiseq⟩ := List.mem_map.mp ((hwell.scanned b hb _).mp hseq)
      obtain ⟨c, hc, rfl⟩ := List.mem_map.mp (hwell.inputs b hb i hi)
      rw [hwell.eq_of_seq hc h.parent_mem hiseq] at hi
      exact hnot (List.contains_iff_mem.mpr hi)

/-- The blocks of the fused plan are what has become of the others than the parent. -/
theorem mem_fusedBlocks {b' : Block} : b' ∈ p.fusedBlocks parent child ↔
    ∃ b ∈ p.blocks, b.id ≠ parent.id ∧ afterFusion parent child b = b' := by
  rw [fusedBlocks, List.mem_map]
  simp only [List.mem_filter, decide_eq_true_eq, and_assoc]

theorem tableFree_afterFusion (hne : b.id ≠ child.id) (hfree : b.plan.TableFree) :
    (afterFusion parent child b).plan.TableFree := by
  rw [afterFusion, if_neg hne]
  split
  next =>
    apply hfree.replaceScans
    rintro s ⟨seq, hseq⟩
    split
    · exact ⟨child.id.seq, rfl⟩
    · exact ⟨seq, hseq⟩
  next => exact hfree

theorem tableFree_fused (h : Fusion p parent child) (hfree : child.plan.TableFree) :
    (fused parent child).plan.TableFree := by
  apply (Plan.tableFree_of_isRelay h.relay).replaceScans
  rintro s ⟨seq, hseq⟩
  split
  · cases s.filter with
    | none => exact hfree
    | some predicate => exact hfree
  · exact ⟨seq, hseq⟩

/-- Behind a fusion no table is relayed either. -/
theorem relayed (h : Fusion p parent child) (hrepresents : p.Represents query origin)
    (hrelayed : p.Relayed) (hmem : ∀ b', b' ∈ p'.blocks ↔
      ∃ b ∈ p.blocks, b.id ≠ parent.id ∧ afterFusion parent child b = b') : p'.Relayed := by
  have hwell := hrepresents.wellFormed
  intro b' hb' hrelay c' hc' hread
  obtain ⟨b, hb, hne, rfl⟩ := (hmem b').mp hb'
  obtain ⟨c, hc, -, rfl⟩ := (hmem c').mp hc'
  rw [id_afterFusion] at hread
  by_cases hchild : b.id = child.id
  · obtain rfl := hwell.distinct.eq_of_id hb h.child_mem hchild
    rw [afterFusion_child] at hrelay hread
    have hsame : (fused parent b).plan.isRelay = b.plan.isRelay :=
      Plan.isRelay_inlined h.relay (h.onlyScan hwell) b.plan
    apply tableFree_afterFusion
    · exact fun heq => hwell.notSelf b hb (heq ▸ hread)
    · exact hrelayed b hb (hsame.symm.trans hrelay) c hc hread
  · rw [inputs_afterFusion hchild] at hread
    obtain ⟨i, hi, hmoved⟩ := List.mem_map.mp hread
    by_cases hparent : i = parent.id
    · rw [movedInput, if_pos hparent] at hmoved
      obtain rfl := hwell.distinct.eq_of_id hc h.child_mem hmoved.symm
      rw [afterFusion_child]
      apply h.tableFree_fused
      exact hrelayed parent h.parent_mem h.relay c hc (h.inputs ▸ List.mem_singleton_self _)
    · rw [movedInput, if_neg hparent] at hmoved
      subst hmoved
      have hrelayb : b.plan.isRelay = true := by
        rw [afterFusion, if_neg hchild] at hrelay
        split at hrelay
        · exact Plan.isRelay_of_redirect hrelay
        · exact hrelay
      apply tableFree_afterFusion
      · intro heq
        rw [heq] at hi
        exact hne (congrArg Block.id (h.onlyReader b hb hi))
      · exact hrelayed b hb hrelayb c hc hi

/-- The fused block passes if what the parent stands for has a relation and the child reads rows that
are as wide as they should be. -/
theorem passes_fused_iff (h : Fusion p parent child) (hwell : p.WellFormed) (hwell' : p'.WellFormed)
    (hmem : fused parent child ∈ p'.blocks) (origin : UInt32 → Plan) (ctx : TaskContext)
    (disk : Disk) : Passes (fusedOrigin origin parent child) ctx disk (fused parent child) ↔
      (∃ r, (origin parent.id.seq).relation? ctx disk = some r) ∧
        ∀ i ∈ child.inputs, ∀ r, (origin i.seq).relation? ctx disk = some r → r.Wide := by
  have hid : (fused parent child).id = child.id := rfl
  rw [hwell'.passes_iff hmem, hid, fusedOrigin_child]
  refine and_congr_right' (forall₂_congr fun i hi => ?_)
  rw [h.fusedOrigin_childInput hwell hi]

/-- Blocks other than the two that are fused pass as before. -/
theorem passes_afterFusion_iff (h : Fusion p parent child) (hwell : p.WellFormed)
    (hwell' : p'.WellFormed) (hb : b ∈ p.blocks) (hmem : afterFusion parent child b ∈ p'.blocks)
    (hparent : b.id ≠ parent.id) (hchild : b.id ≠ child.id) (origin : UInt32 → Plan)
    (ctx : TaskContext) (disk : Disk) :
    Passes (fusedOrigin origin parent child) ctx disk (afterFusion parent child b) ↔
      Passes origin ctx disk b := by
  rw [hwell'.passes_iff hmem, hwell.passes_iff hb, id_afterFusion,
    h.fusedOrigin_of_ne hwell hb hchild, inputs_afterFusion hchild, List.forall_mem_map]
  refine and_congr_right' (forall₂_congr fun i hi => ?_)
  rw [h.fusedOrigin_input hwell hb hparent hi]

/-- The parent and the child pass if what the parent stands for has a relation and the child reads
rows that are as wide as they should be.  Such a relation comes from one of the child, whose rows
have the right width as they are made from outputs. -/
theorem passes_of_passes_fused (h : Fusion p parent child) (hrepresents : p.Represents query origin)
    (hrelayed : p.Relayed) {ctx : TaskContext} {disk : Disk} {r : Relation}
    (hr : (origin parent.id.seq).relation? ctx disk = some r)
    (hwide : ∀ i ∈ child.inputs, ∀ r, (origin i.seq).relation? ctx disk = some r → r.Wide) :
    Passes origin ctx disk parent ∧ Passes origin ctx disk child := by
  have hwell := hrepresents.wellFormed
  rw [hwell.passes_iff h.parent_mem, hwell.passes_iff h.child_mem, h.inputs,
    List.forall_mem_singleton]
  refine ⟨⟨⟨r, hr⟩, fun r' hr' => ?_⟩, ?_, hwide⟩
  · have hfree : child.plan.TableFree :=
      hrelayed parent h.parent_mem h.relay child h.child_mem
        (h.inputs ▸ List.mem_singleton_self _)
    refine (hrepresents.stands child h.child_mem).wide_of_tableFree hfree ?_ hr'
    intro seq hseq
    obtain ⟨i, hi, rfl⟩ := List.mem_map.mp ((hwell.scanned child h.child_mem seq).mp hseq)
    exact hwide i hi
  · exact (hrepresents.stands parent h.parent_mem).relation?_of_isRelay h.relay
      (h.onlyScan hwell) hr

/-- All blocks pass behind a fusion just if all have passed before. -/
theorem passes_iff (h : Fusion p parent child) (hrepresents : p.Represents query origin)
    (hrelayed : p.Relayed) (hwell' : p'.WellFormed) (hmem : ∀ b', b' ∈ p'.blocks ↔
      ∃ b ∈ p.blocks, b.id ≠ parent.id ∧ afterFusion parent child b = b')
    (ctx : TaskContext) (disk : Disk) :
    (∀ b' ∈ p'.blocks, Passes (fusedOrigin origin parent child) ctx disk b') ↔
      ∀ b ∈ p.blocks, Passes origin ctx disk b := by
  have hwell := hrepresents.wellFormed
  have hfused : fused parent child ∈ p'.blocks :=
    (hmem _).mpr ⟨child, h.child_mem, h.child_ne hwell, afterFusion_child parent child⟩
  have hpassesFused := h.passes_fused_iff hwell hwell' hfused origin ctx disk
  constructor
  · intro hall b hb
    obtain ⟨⟨r, hr⟩, hwide⟩ := hpassesFused.mp (hall _ hfused)
    obtain ⟨hpassesParent, hpassesChild⟩ :=
      h.passes_of_passes_fused hrepresents hrelayed hr hwide
    -- the fused block speaks for the parent and the child, every other block for itself
    by_cases hparent : b.id = parent.id
    · rwa [hwell.distinct.eq_of_id hb h.parent_mem hparent]
    · by_cases hchild : b.id = child.id
      · rwa [hwell.distinct.eq_of_id hb h.child_mem hchild]
      · have hafter := (hmem _).mpr ⟨b, hb, hparent, rfl⟩
        exact (h.passes_afterFusion_iff hwell hwell' hb hafter hparent hchild origin ctx disk).mp
          (hall _ hafter)
  · intro hall b' hb'
    obtain ⟨b, hb, hparent, rfl⟩ := (hmem b').mp hb'
    by_cases hchild : b.id = child.id
    · obtain rfl := hwell.distinct.eq_of_id hb h.child_mem hchild
      rw [afterFusion_child, hpassesFused]
      exact ⟨((hwell.passes_iff h.parent_mem origin ctx disk).mp (hall parent h.parent_mem)).1,
        ((hwell.passes_iff hb origin ctx disk).mp (hall b hb)).2⟩
    · exact (h.passes_afterFusion_iff hwell hwell' hb hb' hparent hchild origin ctx disk).mpr
        (hall b hb)

end Fusion

end Fuse

/-! ## Broadcast -/

section Broadcast

variable {query : Plan} {p p' : MasterPlan} {origin : UInt32 → Plan} {threshold : UInt64}

/-- The blocks of a plan, one of which hands on its rows to everyone. -/
def markedBlocks (p : MasterPlan) (target : Block) : List Block :=
  p.blocks.map fun b => { b with output := if b.id = target.id then .broadcast else b.output }

theorem markedBlocks_eq (p : MasterPlan) (target : Block) : p.markedBlocks target =
    p.blocks.map fun b => if b.id = target.id then { b with output := .broadcast } else b := by
  apply List.map_congr_left
  intro b _
  split <;> rfl

end Broadcast

/-! ## All rules -/

section Improve

variable {query : Plan} {p p' : MasterPlan} {origin : UInt32 → Plan} {rules : List PlanRule}

theorem exists_rule_of_first? {rule : PlanRule} (h : PlanRule.first? rules p = .ok (some (rule, p'))) :
    rule.result? p = .ok (some p') := by
  induction rules with
  | nil => cases h
  | cons head rules ih =>
    obtain ⟨found, hfound, h⟩ := Except.bind_eq_ok.mp h
    cases found with
    | none => exact ih h
    | some next =>
      cases h
      exact hfound

end Improve

end MasterPlan

end BlockQuery
