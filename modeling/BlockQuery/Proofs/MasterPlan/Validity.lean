import BlockQuery.Proofs.MasterPlan.Accepted

/-!
# Which blocks make up a master plan

Blocks are accepted just if they form a graph without cycles in which every
block scans what it lists as its inputs, and all lead to the terminal block.  A
cycle is reported only where there is one.
-/

namespace BlockQuery.MasterPlan

/-- Whether blocks form a graph of a query that ends in a terminal block. -/
structure Valid (query : QueryId) (blocks : List Block) (terminal : BlockId) : Prop where
  nonempty : blocks ≠ []
  query_eq : ∀ b ∈ blocks, b.id.query = query
  ids_nodup : (blocks.map Block.id).Nodup
  terminal_mem : terminal ∈ blocks.map Block.id
  inputs_nodup : ∀ b ∈ blocks, b.inputs.Nodup
  inputs_mem : ∀ b ∈ blocks, ∀ i ∈ b.inputs, i ∈ blocks.map Block.id
  inputs_ne : ∀ b ∈ blocks, ∀ i ∈ b.inputs, i ≠ b.id
  scanned : ∀ b ∈ blocks, ∀ seq,
    (∃ s ∈ b.plan.scans, s.source = .block seq) ↔ ∃ i ∈ b.inputs, i.seq = seq
  output : ∀ b ∈ blocks, b.output = .none ↔ b.id = terminal
  terminal_unread : ∀ b ∈ blocks, terminal ∉ b.inputs
  others_read : ∀ b ∈ blocks, b.id ≠ terminal → ∃ c ∈ blocks, b.id ∈ c.inputs
  acyclic : ¬Block.Cyclic blocks

theorem mem_scannedBlocks {p : Plan} {seq : UInt32} :
    seq ∈ p.scannedBlocks ↔ ∃ s ∈ p.scans, s.source = .block seq := by
  rw [Plan.scannedBlocks, List.mem_filterMap]
  refine exists_congr fun s => and_congr_right fun _ => ?_
  split
  next n hsource => simp [hsource]
  next name hsource => simp [hsource]

section Valid

variable {query : QueryId} {blocks sorted : List Block} {terminal : BlockId}

theorem cyclic_congr (h : sorted.Perm blocks) : Block.Cyclic sorted ↔ Block.Cyclic blocks := by
  have hreads : Block.Reads sorted = Block.Reads blocks := by
    funext id input
    exact propext (exists_congr fun b => and_congr_left fun _ => h.mem_iff)
  rw [Block.Cyclic, Block.Cyclic, hreads]

/-- Validity does not depend on the order of the blocks. -/
theorem Valid.of_perm (h : Valid query blocks terminal) (hperm : sorted.Perm blocks) :
    Valid query sorted terminal where
  nonempty := fun hnil => h.nonempty (List.nil_perm.mp (hnil ▸ hperm))
  query_eq := fun b hb => h.query_eq b (hperm.mem_iff.mp hb)
  ids_nodup := (hperm.map Block.id).nodup_iff.mpr h.ids_nodup
  terminal_mem := (hperm.map Block.id).mem_iff.mpr h.terminal_mem
  inputs_nodup := fun b hb => h.inputs_nodup b (hperm.mem_iff.mp hb)
  inputs_mem := fun b hb i hi =>
    (hperm.map Block.id).mem_iff.mpr (h.inputs_mem b (hperm.mem_iff.mp hb) i hi)
  inputs_ne := fun b hb => h.inputs_ne b (hperm.mem_iff.mp hb)
  scanned := fun b hb => h.scanned b (hperm.mem_iff.mp hb)
  output := fun b hb => h.output b (hperm.mem_iff.mp hb)
  terminal_unread := fun b hb => h.terminal_unread b (hperm.mem_iff.mp hb)
  others_read := fun b hb hne =>
    let ⟨c, hc, hread⟩ := h.others_read b (hperm.mem_iff.mp hb) hne
    ⟨c, hperm.mem_iff.mpr hc, hread⟩
  acyclic := fun hcycle => h.acyclic ((cyclic_congr hperm).mp hcycle)

/-- Inputs of one query that can be told apart have different numbers. -/
theorem Valid.seqs_nodup (h : Valid query blocks terminal) {b : Block} (hb : b ∈ blocks) :
    (b.inputs.map (·.seq)).Nodup := by
  have hquery : ∀ i ∈ b.inputs, i.query = query := by
    intro i hi
    obtain ⟨c, hc, rfl⟩ := List.mem_map.mp (h.inputs_mem b hb i hi)
    exact h.query_eq c hc
  refine (h.inputs_nodup b hb).map_on ?_
  intro i hi j hj hseq
  cases i
  cases j
  cases hquery _ hi
  cases hquery _ hj
  cases hseq
  rfl

theorem Valid.checked (h : Valid query blocks terminal) :
    ∃ sorted, Checked query blocks terminal sorted ∧ sorted.Perm blocks := by
  have hids : (([] ++ blocks).map Block.id).Nodup := h.ids_nodup
  obtain ⟨sorted, hsorted⟩ := exists_foldlM_collect hids h.query_eq
  obtain ⟨hperm, -⟩ := foldlM_collect hsorted ⟨List.nodup_nil, by simp⟩
  have hvalid := h.of_perm hperm
  refine ⟨sorted, ⟨h.nonempty, hsorted, hvalid.terminal_mem, ?_, ?_⟩, hperm⟩
  · intro b hb
    refine checkBlock_eq_ok_iff.mpr ⟨checkReads_eq_ok_iff.mpr ⟨?_, hvalid.seqs_nodup hb⟩, ?_,
      hvalid.output b hb⟩
    · intro i hi
      exact ⟨hvalid.inputs_ne b hb i hi, hvalid.inputs_mem b hb i hi, List.not_mem_nil⟩
    · refine numberSet_eq_iff.mpr fun seq => ?_
      rw [mem_scannedBlocks, hvalid.scanned b hb, List.mem_map]
  · intro b hb
    refine checkReaders_eq_ok_iff.mpr ⟨?_, ?_⟩
    · rintro hid c hc
      rw [hid]
      exact hvalid.terminal_unread c hc
    · intro hunread
      by_contra hne
      obtain ⟨c, hc, hread⟩ := hvalid.others_read b hb hne
      exact hunread c hc hread

/-- What is checked before cycles are looked for, in terms of the blocks. -/
theorem Checked.valid (h : Checked query blocks terminal sorted)
    (hacyclic : ¬Block.Cyclic sorted) : Valid query blocks terminal := by
  obtain ⟨hperm, hids, hquery⟩ := h.spec
  have hvalid : Valid query sorted terminal := by
    refine ⟨?_, hquery, hids, h.terminal_mem, h.distinct.inputs, ?_, ?_, ?_, ?_, ?_, ?_, hacyclic⟩
    · exact fun hnil => h.nonempty (List.nil_perm.mp (hnil ▸ hperm))
    · exact fun b hb i hi => ((h.reads hb).1 i hi).2
    · exact fun b hb i hi => ((h.reads hb).1 i hi).1
    · intro b hb seq
      rw [← mem_scannedBlocks, h.scanned hb, List.mem_map]
    · exact fun b hb => (checkBlock_eq_ok_iff.mp (h.blocks_ok b hb)).2.2
    · exact fun b hb => h.terminalUnread hb
    · exact fun b hb => h.isRead hb
  exact hvalid.of_perm hperm.symm

theorem Checked.checkAcyclic_iff (h : Checked query blocks terminal sorted) :
    checkAcyclic sorted = .ok () ↔ ¬Block.Cyclic sorted := by
  rw [checkAcyclic_eq_ok_iff]
  exact BlockCursor.length_drain_eq_iff h.distinct fun b hb i hi => ((h.reads hb).1 i hi).2

theorem Valid.exists_ofBlocks (h : Valid query blocks terminal) :
    ∃ p, ofBlocks query blocks terminal = .ok p := by
  obtain ⟨sorted, hchecked, hperm⟩ := h.checked
  have hacyclic := hchecked.checkAcyclic_iff.mpr
    fun hcycle => h.acyclic ((cyclic_congr hperm).mp hcycle)
  rw [hchecked.ofBlocks_eq, hacyclic]
  exact ⟨_, rfl⟩

/-- What makes up a plan is valid, and it makes up a well-formed one. -/
theorem valid_of_ofBlocks {p : MasterPlan} (h : ofBlocks query blocks terminal = .ok p) :
    Valid p.query p.blocks p.terminal := by
  obtain ⟨sorted, hchecked, hacyclic, rfl⟩ := exists_checked_of_ok h
  have hvalid := hchecked.valid (hchecked.checkAcyclic_iff.mp hacyclic)
  exact hvalid.of_perm hchecked.spec.1

theorem Valid.wellFormed {p : MasterPlan} (h : Valid p.query p.blocks p.terminal) :
    p.WellFormed where
  query := h.query_eq
  distinct := ⟨h.ids_nodup, h.inputs_nodup⟩
  terminal := h.terminal_mem
  inputs := h.inputs_mem
  notSelf := fun b hb hself => h.inputs_ne b hb b.id hself rfl
  scanned := fun b hb seq => by rw [mem_scannedBlocks, h.scanned b hb, List.mem_map]
  isRead := h.others_read
  terminalUnread := h.terminal_unread
  acyclic := (BlockCursor.length_drain_eq_iff ⟨h.ids_nodup, h.inputs_nodup⟩ h.inputs_mem).mpr
    h.acyclic

end Valid

/-- Blocks are accepted just if they are valid, and a cycle is reported only if they read each other
in one. -/
theorem exists_ofBlocks_iff_valid (query : QueryId) (blocks : List Block) (terminal : BlockId) :
    ((∃ p, ofBlocks query blocks terminal = .ok p) ↔ Valid query blocks terminal) ∧
      ∀ id, ofBlocks query blocks terminal = .error (.planning id .cycle) →
        Block.Cyclic blocks := by
  refine ⟨⟨?_, ?_⟩, ?_⟩
  · rintro ⟨p, hp⟩
    obtain ⟨sorted, hchecked, hacyclic, -⟩ := exists_checked_of_ok hp
    exact hchecked.valid (hchecked.checkAcyclic_iff.mp hacyclic)
  · intro hvalid
    obtain ⟨sorted, hchecked, hperm⟩ := hvalid.checked
    have hacyclic := hchecked.checkAcyclic_iff.mpr
      fun hcycle => hvalid.acyclic ((cyclic_congr hperm).mp hcycle)
    rw [hchecked.ofBlocks_eq, hacyclic]
    exact ⟨_, rfl⟩
  · intro id herror
    rcases checked_or_error query blocks terminal with ⟨sorted, hchecked⟩ | ⟨e, he, hne⟩
    · obtain ⟨hperm, -⟩ := foldlM_collect hchecked.collected ⟨List.nodup_nil, by simp⟩
      by_contra hacyclic
      have hok := hchecked.checkAcyclic_iff.mpr
        fun hcycle => hacyclic ((cyclic_congr hchecked.spec.1).mp hcycle)
      rw [hchecked.ofBlocks_eq, hok] at herror
      cases herror
    · rw [he] at herror
      exact absurd (Except.error.inj herror) (hne id)

end BlockQuery.MasterPlan
