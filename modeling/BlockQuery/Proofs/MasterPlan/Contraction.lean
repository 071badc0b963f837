import BlockQuery.Proofs.MasterPlan.Emission
import BlockQuery.Proofs.MasterPlan.Improvement
import BlockQuery.Proofs.MasterPlan.Validity

/-!
# Fused blocks make up a plan

A fusion contracts the edge between a block and its only reader.  Every edge
that is there afterwards is a path of one or two edges from before, so there is
no new cycle, and the child takes over the place of the parent in all else.
-/

namespace BlockQuery

namespace Plan

theorem scans_replaceScans (f : Scan → Plan) (p : Plan) :
    (p.replaceScans f).scans = p.scans.flatMap fun s => (f s).scans := by
  induction p with
  | scan => simp [replaceScans, scans]
  | createTable => rfl
  | join _ _ _ _ _ ihl ihr => simp [replaceScans, scans, ihl, ihr]
  | root _ ih | filter _ _ ih | groupBy _ _ _ _ ih | sort _ _ ih | project _ _ _ ih =>
    simpa [replaceScans, scans] using ih

theorem scannedBlocks_redirect (p : Plan) (source target : UInt32) :
    (p.replaceScans fun s =>
      .scan (if s.source = .block source then { s with source := .block target } else s)
      ).scannedBlocks = p.scannedBlocks.map fun seq => if seq = source then target else seq := by
  rw [scannedBlocks, scannedBlocks, scans_replaceScans]
  induction p.scans with
  | nil => rfl
  | cons s rest ih =>
    obtain ⟨name | seq, schema, filter, hint⟩ := s
    · simpa [scans] using ih
    · by_cases hseq : seq = source <;> simpa [scans, hseq] using ih

/-- A plan that only filters and projects one output scans what is put in its place. -/
theorem scans_inlined {q : Plan} {seq : UInt32} (hrelay : q.isRelay = true)
    (honly : ∀ s ∈ q.scannedBlocks, s = seq) (inner : Plan) :
    (MasterPlan.inlined seq inner q).scans = inner.scans :=
  inlined_induction (motive := fun p => p.scans = inner.scans) hrelay honly rfl
    (fun _ _ hp => hp) fun _ _ _ hp => hp

end Plan

namespace MasterPlan

open Block (Reads Cyclic)

variable {p : MasterPlan} {parent child b : Block}

namespace Fusion

theorem child_reads (h : Fusion p parent child) : Reads p.blocks parent.id child.id :=
  ⟨parent, h.parent_mem, rfl, h.inputs ▸ List.mem_singleton_self _⟩

theorem terminal_ne_child (h : Fusion p parent child) (hwell : p.WellFormed) :
    p.terminal ≠ child.id := by
  intro heq
  apply hwell.terminalUnread parent h.parent_mem
  rw [h.inputs, heq]
  exact List.mem_singleton_self _

theorem child_notMem (h : Fusion p parent child) (hb : b ∈ p.blocks) (hne : b.id ≠ parent.id) :
    child.id ∉ b.inputs :=
  fun hread => hne (congrArg Block.id (h.onlyReader b hb hread))

theorem parent_notMem (h : Fusion p parent child) (hwell : p.WellFormed) :
    parent.id ∉ child.inputs := by
  intro hread
  have hback : Reads p.blocks child.id parent.id := ⟨child, h.child_mem, rfl, hread⟩
  exact hwell.not_cyclic ⟨parent.id, .tail (.single h.child_reads) hback⟩

theorem inputs_fused : (afterFusion parent child child).inputs = child.inputs := by
  rw [afterFusion_child]
  rfl

theorem child_mem_fusedBlocks (h : Fusion p parent child) (hwell : p.WellFormed) :
    afterFusion parent child child ∈ p.fusedBlocks parent child :=
  mem_fusedBlocks.mpr ⟨child, h.child_mem, h.child_ne hwell, rfl⟩

theorem ids_fusedBlocks (p : MasterPlan) (parent child : Block) :
    (p.fusedBlocks parent child).map Block.id =
      (p.blocks.filter fun b => b.id ≠ parent.id).map Block.id := by
  rw [fusedBlocks, List.map_map]
  exact List.map_congr_left fun b _ => id_afterFusion parent child b

theorem mem_ids_fusedBlocks {id : BlockId} :
    id ∈ (p.fusedBlocks parent child).map Block.id ↔
      id ∈ p.blocks.map Block.id ∧ id ≠ parent.id := by
  rw [ids_fusedBlocks]
  simp only [List.mem_map, List.mem_filter, decide_eq_true_eq]
  constructor
  · rintro ⟨b, ⟨hb, hne⟩, rfl⟩
    exact ⟨⟨b, hb, rfl⟩, hne⟩
  · rintro ⟨⟨b, hb, rfl⟩, hne⟩
    exact ⟨b, ⟨hb, hne⟩, rfl⟩

/-- What a block reads after a fusion. -/
theorem mem_inputs_afterFusion (h : Fusion p parent child) (hwell : p.WellFormed)
    (hb : b ∈ p.blocks) {i : BlockId} :
    i ∈ (afterFusion parent child b).inputs ↔
      i ≠ parent.id ∧ i ∈ b.inputs ∨ i = child.id ∧ parent.id ∈ b.inputs := by
  by_cases hchild : b.id = child.id
  · obtain rfl := hwell.distinct.eq_of_id hb h.child_mem hchild
    have hparent := h.parent_notMem hwell
    rw [inputs_fused]
    constructor
    · intro hi
      exact Or.inl ⟨fun heq => hparent (heq ▸ hi), hi⟩
    · rintro (⟨-, hi⟩ | ⟨-, hi⟩)
      · exact hi
      · exact absurd hi hparent
  · rw [inputs_afterFusion hchild, List.mem_map]
    constructor
    · rintro ⟨j, hj, rfl⟩
      by_cases hparent : j = parent.id
      · exact Or.inr ⟨if_pos hparent, hparent ▸ hj⟩
      · rw [movedInput, if_neg hparent]
        exact Or.inl ⟨hparent, hj⟩
    · rintro (⟨hparent, hi⟩ | ⟨rfl, hi⟩)
      · exact ⟨i, hi, if_neg hparent⟩
      · exact ⟨parent.id, hi, if_pos rfl⟩

/-- An edge after a fusion was a path before. -/
theorem transGen_of_reads (h : Fusion p parent child) (hwell : p.WellFormed) {id i : BlockId}
    (hread : Reads (p.fusedBlocks parent child) id i) :
    Relation.TransGen (Reads p.blocks) id i := by
  obtain ⟨b', hb', rfl, hi⟩ := hread
  obtain ⟨b, hb, -, rfl⟩ := mem_fusedBlocks.mp hb'
  rw [id_afterFusion]
  rcases (h.mem_inputs_afterFusion hwell hb).mp hi with ⟨-, hi⟩ | ⟨rfl, hparent⟩
  · exact .single ⟨b, hb, rfl, hi⟩
  · exact .tail (.single ⟨b, hb, rfl, hparent⟩) h.child_reads

theorem not_cyclic (h : Fusion p parent child) (hwell : p.WellFormed) :
    ¬Cyclic (p.fusedBlocks parent child) := by
  rintro ⟨id, hcycle⟩
  apply hwell.not_cyclic
  have hpath : Reads (p.fusedBlocks parent child) ≤ Relation.TransGen (Reads p.blocks) :=
    fun _ _ hread => h.transGen_of_reads hwell hread
  exact ⟨id, Relation.TransGen.closed hpath id id hcycle⟩

theorem nodup_inputs (h : Fusion p parent child) (hwell : p.WellFormed) (hb : b ∈ p.blocks)
    (hne : b.id ≠ parent.id) : (afterFusion parent child b).inputs.Nodup := by
  by_cases hchild : b.id = child.id
  · obtain rfl := hwell.distinct.eq_of_id hb h.child_mem hchild
    rw [inputs_fused]
    exact hwell.distinct.inputs b hb
  · rw [inputs_afterFusion hchild]
    refine List.Nodup.map_on ?_ (hwell.distinct.inputs b hb)
    have hfresh := h.child_notMem hb hne
    intro i hi j hj heq
    unfold movedInput at heq
    split at heq <;> split at heq
    · simp_all
    · exact absurd (heq ▸ hj) hfresh
    · exact absurd (heq ▸ hi) hfresh
    · exact heq

theorem output_afterFusion (hne : b.id ≠ child.id) :
    (afterFusion parent child b).output = b.output := by
  rw [afterFusion, if_neg hne]
  split <;> rfl

/-- A block scans the outputs that it reads after a fusion. -/
theorem mem_scannedBlocks_afterFusion (h : Fusion p parent child) (hwell : p.WellFormed)
    (hb : b ∈ p.blocks) (seq : UInt32) :
    seq ∈ (afterFusion parent child b).plan.scannedBlocks ↔
      seq ∈ (afterFusion parent child b).inputs.map BlockId.seq := by
  by_cases hchild : b.id = child.id
  · obtain rfl := hwell.distinct.eq_of_id hb h.child_mem hchild
    rw [inputs_fused, ← hwell.scanned b hb, afterFusion_child, fused, mem_scannedBlocks,
      mem_scannedBlocks, Plan.scans_inlined h.relay (h.onlyScan hwell)]
  · by_cases hreads : parent.id ∈ b.inputs
    · -- scans move by numbers and inputs by ids, which is the same among the blocks of a query
      have hmoved : ∀ i ∈ b.inputs, (movedInput parent child i).seq =
          if i.seq = parent.id.seq then child.id.seq else i.seq := by
        intro i hi
        obtain ⟨c, hc, rfl⟩ := List.mem_map.mp (hwell.inputs b hb i hi)
        have hsame : c.id = parent.id ↔ c.id.seq = parent.id.seq :=
          ⟨congrArg BlockId.seq,
            fun hseq => congrArg Block.id (hwell.eq_of_seq hc h.parent_mem hseq)⟩
        rw [movedInput, apply_ite BlockId.seq]
        simp only [hsame]
      have hplan : (afterFusion parent child b).plan = (redirected parent.id child.id b).plan := by
        rw [afterFusion, if_neg hchild, if_pos (List.contains_iff_mem.mpr hreads)]
      calc seq ∈ (afterFusion parent child b).plan.scannedBlocks
        _ ↔ ∃ n ∈ b.plan.scannedBlocks, (if n = parent.id.seq then child.id.seq else n) = seq := by
          rw [hplan, redirected, Plan.scannedBlocks_redirect, List.mem_map]
        _ ↔ ∃ i ∈ b.inputs, (if i.seq = parent.id.seq then child.id.seq else i.seq) = seq := by
          simp only [hwell.scanned b hb, List.mem_map, exists_exists_and_eq_and]
        _ ↔ ∃ i ∈ b.inputs, (movedInput parent child i).seq = seq :=
          exists_congr fun i => and_congr_right fun hi => by rw [hmoved i hi]
        _ ↔ seq ∈ (afterFusion parent child b).inputs.map BlockId.seq := by
          rw [inputs_afterFusion hchild]
          simp
    · have hsame : afterFusion parent child b = b := by
        rw [afterFusion, if_neg hchild, if_neg (by simpa using hreads)]
      rw [hsame, hwell.scanned b hb]

/-! ## The terminal block -/

theorem fusedTerminal_of_eq (hterminal : p.terminal = parent.id) :
    p.fusedTerminal parent child = child.id := if_pos hterminal

theorem fusedTerminal_of_ne (hterminal : p.terminal ≠ parent.id) :
    p.fusedTerminal parent child = p.terminal := if_neg hterminal

theorem fusedTerminal_notMem (h : Fusion p parent child) (hwell : p.WellFormed)
    (hb : b ∈ p.blocks) (hne : b.id ≠ parent.id) :
    p.fusedTerminal parent child ∉ (afterFusion parent child b).inputs := by
  rw [h.mem_inputs_afterFusion hwell hb]
  have hunread := hwell.terminalUnread b hb
  by_cases hterminal : p.terminal = parent.id
  · rw [fusedTerminal_of_eq hterminal]
    rintro (⟨-, hread⟩ | ⟨-, hread⟩)
    · exact h.child_notMem hb hne hread
    · exact hunread (hterminal ▸ hread)
  · rw [fusedTerminal_of_ne hterminal]
    rintro (⟨-, hread⟩ | ⟨heq, -⟩)
    · exact hunread hread
    · exact h.terminal_ne_child hwell heq

theorem output_eq_none_iff (h : Fusion p parent child) (hwell : p.WellFormed)
    (houtput : ∀ b ∈ p.blocks, b.output = .none ↔ b.id = p.terminal) (hb : b ∈ p.blocks)
    (hne : b.id ≠ parent.id) :
    (afterFusion parent child b).output = .none ↔ b.id = p.fusedTerminal parent child := by
  by_cases hchild : b.id = child.id
  · obtain rfl := hwell.distinct.eq_of_id hb h.child_mem hchild
    rw [afterFusion_child]
    change parent.output = .none ↔ _
    rw [houtput parent h.parent_mem]
    by_cases hterminal : p.terminal = parent.id
    · simp [fusedTerminal_of_eq hterminal, hterminal]
    · rw [fusedTerminal_of_ne hterminal]
      exact iff_of_false (Ne.symm hterminal) (h.terminal_ne_child hwell).symm
  · rw [output_afterFusion hchild, houtput b hb]
    by_cases hterminal : p.terminal = parent.id
    · rw [fusedTerminal_of_eq hterminal, hterminal]
      exact iff_of_false hne hchild
    · rw [fusedTerminal_of_ne hterminal]

/-- What has been read by another block than the parent still is, and the child is read by those
that have read the parent. -/
theorem exists_reader (h : Fusion p parent child) (hwell : p.WellFormed) (hb : b ∈ p.blocks)
    (hne : b.id ≠ parent.id) (hterminal : b.id ≠ p.fusedTerminal parent child) :
    ∃ c ∈ p.blocks, c.id ≠ parent.id ∧ b.id ∈ (afterFusion parent child c).inputs := by
  by_cases hchild : b.id = child.id
  · have hparent : parent.id ≠ p.terminal := fun heq =>
      hterminal (hchild.trans (fusedTerminal_of_eq heq.symm).symm)
    obtain ⟨c, hc, hread⟩ := hwell.isRead parent h.parent_mem hparent
    refine ⟨c, hc, ?_, (h.mem_inputs_afterFusion hwell hc).mpr (Or.inr ⟨hchild, hread⟩)⟩
    intro heq
    exact hwell.notSelf c hc (heq ▸ hread)
  · have hother : b.id ≠ p.terminal := by
      by_cases hparent : p.terminal = parent.id
      · rwa [hparent]
      · rwa [fusedTerminal_of_ne hparent] at hterminal
    obtain ⟨c, hc, hread⟩ := hwell.isRead b hb hother
    refine ⟨c, hc, ?_, (h.mem_inputs_afterFusion hwell hc).mpr (Or.inl ⟨hne, hread⟩)⟩
    intro heq
    obtain rfl := hwell.distinct.eq_of_id hc h.parent_mem heq
    rw [h.inputs, List.mem_singleton] at hread
    exact hchild hread

/-- The blocks behind a fusion are valid again. -/
theorem valid (h : Fusion p parent child) (hvalid : Valid p.query p.blocks p.terminal) :
    Valid p.query (p.fusedBlocks parent child) (p.fusedTerminal parent child) := by
  have hwell := hvalid.wellFormed
  refine ⟨List.ne_nil_of_mem (h.child_mem_fusedBlocks hwell), ?_, ?_, ?_, ?_, ?_, ?_, ?_, ?_, ?_, ?_,
    h.not_cyclic hwell⟩
  · intro b' hb'
    obtain ⟨b, hb, -, rfl⟩ := mem_fusedBlocks.mp hb'
    rw [id_afterFusion]
    exact hwell.query b hb
  · rw [ids_fusedBlocks]
    exact (List.filter_sublist.map _).nodup hwell.distinct.ids
  · rw [mem_ids_fusedBlocks]
    by_cases hterminal : p.terminal = parent.id
    · rw [fusedTerminal_of_eq hterminal]
      exact ⟨List.mem_map_of_mem h.child_mem, h.child_ne hwell⟩
    · rw [fusedTerminal_of_ne hterminal]
      exact ⟨hwell.terminal, hterminal⟩
  · intro b' hb'
    obtain ⟨b, hb, hne, rfl⟩ := mem_fusedBlocks.mp hb'
    exact h.nodup_inputs hwell hb hne
  · intro b' hb' i hi
    obtain ⟨b, hb, hne, rfl⟩ := mem_fusedBlocks.mp hb'
    rw [mem_ids_fusedBlocks]
    rcases (h.mem_inputs_afterFusion hwell hb).mp hi with ⟨hparent, hi⟩ | ⟨rfl, -⟩
    · exact ⟨hwell.inputs b hb i hi, hparent⟩
    · exact ⟨List.mem_map_of_mem h.child_mem, h.child_ne hwell⟩
  · intro b' hb' i hi heq
    exact h.not_cyclic hwell ⟨b'.id, .single ⟨b', hb', rfl, heq ▸ hi⟩⟩
  · intro b' hb' seq
    obtain ⟨b, hb, -, rfl⟩ := mem_fusedBlocks.mp hb'
    rw [← mem_scannedBlocks, h.mem_scannedBlocks_afterFusion hwell hb, List.mem_map]
  · intro b' hb'
    obtain ⟨b, hb, hne, rfl⟩ := mem_fusedBlocks.mp hb'
    rw [id_afterFusion]
    exact h.output_eq_none_iff hwell hvalid.output hb hne
  · intro b' hb'
    obtain ⟨b, hb, hne, rfl⟩ := mem_fusedBlocks.mp hb'
    exact h.fusedTerminal_notMem hwell hb hne
  · intro b' hb' hterminal
    obtain ⟨b, hb, hne, rfl⟩ := mem_fusedBlocks.mp hb'
    rw [id_afterFusion] at hterminal ⊢
    obtain ⟨c, hc, hcne, hread⟩ := h.exists_reader hwell hb hne hterminal
    exact ⟨_, mem_fusedBlocks.mpr ⟨c, hc, hcne, rfl⟩, hread⟩

end Fusion

end MasterPlan

end BlockQuery
