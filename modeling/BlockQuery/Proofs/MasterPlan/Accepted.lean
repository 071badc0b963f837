import BlockQuery.MasterPlan
import BlockQuery.Proofs.Block.Cycles
import BlockQuery.Proofs.Except

/-!
# Accepted master plans

Blocks that make up a master plan can be told apart, read other blocks of the
plan and scan just what they read.  The order in which they are run holds each
of them once, behind its inputs.
-/

namespace BlockQuery.MasterPlan

open BlockCursor (Distinct)

/-! ## Collecting blocks -/

theorem insertBlock_perm (b : Block) (blocks : List Block) :
    (insertBlock b blocks).Perm (b :: blocks) := by
  induction blocks with
  | nil => exact List.Perm.refl _
  | cons c cs ih =>
    rw [insertBlock]
    split
    · exact List.Perm.refl _
    · exact (ih.cons c).trans (List.Perm.swap b c cs)

theorem any_id_iff {blocks : List Block} {id : BlockId} :
    blocks.any (·.id == id) = true ↔ id ∈ blocks.map (·.id) := by
  simp [List.any_eq_true]

theorem collect_eq_ok_iff {query : QueryId} {blocks sorted : List Block} {b : Block} :
    collect query blocks b = .ok sorted ↔
      b.id.query = query ∧ b.id ∉ blocks.map (·.id) ∧ sorted = insertBlock b blocks := by
  rw [collect, ← any_id_iff]
  split
  next hquery => simp [hquery]
  next hquery =>
    split
    next htwice => simp [htwice]
    next hnew =>
      constructor
      · intro h
        cases h
        exact ⟨not_not.mp hquery, hnew, rfl⟩
      · rintro ⟨-, -, rfl⟩
        rfl

theorem foldlM_collect {query : QueryId} {blocks start sorted : List Block}
    (h : blocks.foldlM (collect query) start = .ok sorted)
    (hstart : (start.map (·.id)).Nodup ∧ ∀ b ∈ start, b.id.query = query) :
    sorted.Perm (start ++ blocks) ∧ (sorted.map (·.id)).Nodup ∧
      ∀ b ∈ sorted, b.id.query = query := by
  induction blocks generalizing start with
  | nil =>
    cases h
    exact ⟨by rw [List.append_nil], hstart⟩
  | cons b blocks ih =>
    rw [List.foldlM_cons] at h
    obtain ⟨next, hcollect, h⟩ := Except.bind_eq_ok.mp h
    obtain ⟨hquery, hnew, hinsert⟩ := collect_eq_ok_iff.mp hcollect
    have hperm : next.Perm (b :: start) := hinsert ▸ insertBlock_perm b start
    have hnext : (next.map (·.id)).Nodup ∧ ∀ b ∈ next, b.id.query = query := by
      constructor
      · rw [(hperm.map (·.id)).nodup_iff, List.map_cons, List.nodup_cons]
        exact ⟨hnew, hstart.1⟩
      · intro c hc
        rcases List.mem_cons.mp (hperm.mem_iff.mp hc) with rfl | hc
        · exact hquery
        · exact hstart.2 c hc
    obtain ⟨hsorted, hrest⟩ := ih h hnext
    refine ⟨hsorted.trans ?_, hrest⟩
    exact (hperm.append_right blocks).trans List.perm_middle.symm

/-- Blocks of the query that can be told apart are all collected. -/
theorem exists_foldlM_collect {query : QueryId} {blocks start : List Block}
    (hids : ((start ++ blocks).map (·.id)).Nodup) (hquery : ∀ b ∈ blocks, b.id.query = query) :
    ∃ sorted, blocks.foldlM (collect query) start = .ok sorted := by
  induction blocks generalizing start with
  | nil => exact ⟨start, rfl⟩
  | cons b blocks ih =>
    obtain ⟨hb, hblocks⟩ := List.forall_mem_cons.mp hquery
    have hperm : (start ++ b :: blocks).Perm (insertBlock b start ++ blocks) :=
      List.perm_middle.trans ((insertBlock_perm b start).symm.append_right blocks)
    have hids' := (hperm.map (·.id)).nodup_iff.mp hids
    have hnew : b.id ∉ start.map (·.id) := by
      rw [List.map_append, List.map_cons, List.nodup_middle] at hids
      exact fun hmem => (List.nodup_cons.mp hids).1 (List.mem_append_left _ hmem)
    obtain ⟨sorted, hsorted⟩ := ih hids' hblocks
    rw [List.foldlM_cons, collect_eq_ok_iff.mpr ⟨hb, hnew, rfl⟩]
    exact ⟨sorted, hsorted⟩

/-! ## What blocks read -/

theorem mem_insertNumber {n m : UInt32} {ns : List UInt32} :
    m ∈ insertNumber n ns ↔ m = n ∨ m ∈ ns := by
  induction ns with
  | nil => simp [insertNumber]
  | cons k ks ih =>
    rw [insertNumber]
    split
    · simp
    · split
      next heq => simp [heq]
      next => simp only [List.mem_cons, ih]; tauto

theorem mem_numberSet {m : UInt32} {ns : List UInt32} : m ∈ numberSet ns ↔ m ∈ ns := by
  induction ns with
  | nil => simp [numberSet]
  | cons n ns ih =>
    change m ∈ insertNumber n (numberSet ns) ↔ _
    rw [mem_insertNumber, ih, List.mem_cons]

/-- Putting a number in its place keeps a list sorted and without repetitions. -/
theorem pairwise_insertNumber {n : UInt32} {ns : List UInt32} (h : ns.Pairwise (· < ·)) :
    (insertNumber n ns).Pairwise (· < ·) := by
  induction ns with
  | nil => exact List.pairwise_singleton _ _
  | cons k ks ih =>
    obtain ⟨hk, hks⟩ := List.pairwise_cons.mp h
    rw [insertNumber]
    split
    next hlt =>
      refine List.pairwise_cons.mpr ⟨?_, h⟩
      intro m hm
      rcases List.mem_cons.mp hm with rfl | hm
      · exact hlt
      · exact UInt32.lt_trans hlt (hk m hm)
    next hlt =>
      split
      next => exact h
      next hne =>
        refine List.pairwise_cons.mpr ⟨?_, ih hks⟩
        intro m hm
        rcases mem_insertNumber.mp hm with rfl | hm
        · exact UInt32.lt_of_le_of_ne (UInt32.not_lt.mp hlt) (Ne.symm hne)
        · exact hk m hm

theorem pairwise_numberSet (ns : List UInt32) : (numberSet ns).Pairwise (· < ·) := by
  induction ns with
  | nil => exact List.Pairwise.nil
  | cons n ns ih => exact pairwise_insertNumber ih

/-- Numbers have the same set just if they are the same up to order and repetition. -/
theorem numberSet_eq_iff {ns ms : List UInt32} :
    numberSet ns = numberSet ms ↔ ∀ m, m ∈ ns ↔ m ∈ ms := by
  constructor
  · intro h m
    rw [← mem_numberSet, h, mem_numberSet]
  · intro h
    have hnodup : ∀ ns, (numberSet ns).Nodup := fun ns =>
      (pairwise_numberSet ns).imp UInt32.ne_of_lt
    have hperm : (numberSet ns).Perm (numberSet ms) := by
      rw [List.perm_ext_iff_of_nodup (hnodup ns) (hnodup ms)]
      intro m
      rw [mem_numberSet, mem_numberSet, h]
    exact hperm.eq_of_pairwise (fun a b _ _ hab hba => absurd hab (UInt32.lt_asymm hba))
      (pairwise_numberSet ns) (pairwise_numberSet ms)

theorem checkReads_eq_ok_iff {blocks : List Block} {id : BlockId} {seen : List UInt32}
    {inputs : List BlockId} : checkReads blocks id seen inputs = .ok () ↔
      (∀ i ∈ inputs, i ≠ id ∧ i ∈ blocks.map (·.id) ∧ i.seq ∉ seen) ∧
        (inputs.map (·.seq)).Nodup := by
  induction inputs generalizing seen with
  | nil => simp [checkReads]
  | cons input rest ih =>
    rw [checkReads, List.forall_mem_cons, List.map_cons, List.nodup_cons, ← any_id_iff]
    split
    next hself => simp [hself]
    next hself =>
      split
      next hany => simp_all
      next hany =>
        rw [Bool.not_eq_true, Bool.not_eq_false'] at hany
        split
        next hseen => simp_all
        next hseen =>
          rw [List.contains_iff_mem] at hseen
          rw [ih]
          constructor
          · rintro ⟨hrest, hnodup⟩
            refine ⟨⟨⟨hself, hany, hseen⟩, fun i hi => ?_⟩, ?_, hnodup⟩
            · obtain ⟨hne, hin, hfresh⟩ := hrest i hi
              exact ⟨hne, hin, fun hs => hfresh (List.mem_cons_of_mem _ hs)⟩
            · intro hmem
              obtain ⟨i, hi, heq⟩ := List.mem_map.mp hmem
              exact (hrest i hi).2.2 (heq ▸ List.mem_cons_self)
          · rintro ⟨⟨-, hrest⟩, hnew, hnodup⟩
            refine ⟨fun i hi => ?_, hnodup⟩
            obtain ⟨hne, hin, hfresh⟩ := hrest i hi
            refine ⟨hne, hin, fun hs => ?_⟩
            rcases List.mem_cons.mp hs with heq | hs
            · exact hnew (heq ▸ List.mem_map_of_mem hi)
            · exact hfresh hs

/-- What holds of the blocks of a master plan. -/
structure WellFormed (p : MasterPlan) : Prop where
  query : ∀ b ∈ p.blocks, b.id.query = p.query
  distinct : Distinct p.blocks
  terminal : p.terminal ∈ p.blocks.map Block.id
  inputs : ∀ b ∈ p.blocks, ∀ i ∈ b.inputs, i ∈ p.blocks.map Block.id
  notSelf : ∀ b ∈ p.blocks, b.id ∉ b.inputs
  scanned : ∀ b ∈ p.blocks, ∀ seq, seq ∈ b.plan.scannedBlocks ↔ seq ∈ b.inputs.map BlockId.seq
  isRead : ∀ b ∈ p.blocks, b.id ≠ p.terminal → ∃ c ∈ p.blocks, b.id ∈ c.inputs
  terminalUnread : ∀ b ∈ p.blocks, p.terminal ∉ b.inputs
  acyclic : p.cursor.drain.1.length = p.blocks.length

theorem atBlock_eq_ok_iff {check : Block → Except PlanFault Unit} {b : Block} :
    atBlock check b = .ok () ↔ check b = .ok () := by
  rw [atBlock]
  cases check b with
  | error e => exact ⟨nofun, nofun⟩
  | ok u => exact ⟨fun _ => rfl, fun _ => rfl⟩

theorem forM_eq_ok_iff {check : Block → Except PlannerError Unit} {blocks : List Block} :
    blocks.forM check = .ok () ↔ ∀ b ∈ blocks, check b = .ok () := by
  induction blocks with
  | nil => exact ⟨fun _ _ hb => absurd hb List.not_mem_nil, fun _ => rfl⟩
  | cons b blocks ih =>
    rw [List.forM_eq_forM] at ih ⊢
    rw [List.forM_cons, List.forall_mem_cons, ← ih]
    cases hc : check b with
    | error e => exact ⟨nofun, fun h => absurd h.1 nofun⟩
    | ok u => exact ⟨fun h => ⟨rfl, h⟩, fun h => h.2⟩

theorem checkBlock_eq_ok_iff {blocks : List Block} {terminal : BlockId} {b : Block} :
    checkBlock blocks terminal b = .ok () ↔
      checkReads blocks b.id [] b.inputs = .ok () ∧
        numberSet b.plan.scannedBlocks = numberSet (b.inputs.map (·.seq)) ∧
        (b.output = .none ↔ b.id = terminal) := by
  rw [checkBlock]
  cases hreads : checkReads blocks b.id [] b.inputs with
  | error e => exact ⟨nofun, fun h => absurd h.1 nofun⟩
  | ok u =>
    change (if numberSet b.plan.scannedBlocks ≠ numberSet (b.inputs.map (·.seq)) then _ else _) =
      Except.ok () ↔ _
    by_cases hsame : numberSet b.plan.scannedBlocks = numberSet (b.inputs.map (·.seq))
    · rw [if_neg (not_not_intro hsame)]
      by_cases hterminal : b.id = terminal <;> by_cases houtput : b.output = .none <;>
        simp [hterminal, houtput, hsame] <;> rfl
    · rw [if_pos hsame]
      exact ⟨nofun, fun h => absurd h.2.1 hsame⟩

theorem readers_eq_nil_iff {blocks : List Block} {id : BlockId} :
    Block.readers blocks id = [] ↔ ∀ c ∈ blocks, id ∉ c.inputs := by
  simp [Block.readers, List.filter_eq_nil_iff]

theorem checkReaders_eq_ok_iff {blocks : List Block} {terminal : BlockId} {b : Block} :
    checkReaders blocks terminal b = .ok () ↔
      (b.id = terminal ↔ ∀ c ∈ blocks, b.id ∉ c.inputs) := by
  rw [← readers_eq_nil_iff, checkReaders]
  by_cases hterminal : b.id = terminal <;>
    cases hr : Block.readers blocks b.id <;> simp [hterminal]

theorem checkAcyclic_eq_ok_iff {blocks : List Block} :
    checkAcyclic blocks = .ok () ↔ (BlockCursor.start blocks).drain.1.length = blocks.length := by
  rw [checkAcyclic]
  dsimp only
  split
  next hlength => simp [hlength]
  next hlength => simp [hlength]

/-- What has been found when only cycles are left to look for. -/
structure Checked (query : QueryId) (blocks : List Block) (terminal : BlockId)
    (sorted : List Block) : Prop where
  nonempty : blocks ≠ []
  collected : blocks.foldlM (collect query) [] = .ok sorted
  terminal_mem : terminal ∈ sorted.map Block.id
  blocks_ok : ∀ b ∈ sorted, checkBlock sorted terminal b = .ok ()
  readers_ok : ∀ b ∈ sorted, checkReaders sorted terminal b = .ok ()

section Checked

variable {query : QueryId} {blocks sorted : List Block} {terminal : BlockId} {p : MasterPlan}

theorem Checked.ofBlocks_eq (h : Checked query blocks terminal sorted) :
    ofBlocks query blocks terminal =
      (checkAcyclic sorted).map fun _ => ⟨query, sorted, terminal⟩ := by
  have hempty : blocks.isEmpty = false := by
    rw [List.isEmpty_eq_false_iff]
    exact h.nonempty
  have hany : (!sorted.any (·.id == terminal)) = false := by
    rw [any_id_iff.mpr h.terminal_mem]
    rfl
  have hblocks : sorted.forM (atBlock (checkBlock sorted terminal)) = .ok () :=
    forM_eq_ok_iff.mpr fun b hb => atBlock_eq_ok_iff.mpr (h.blocks_ok b hb)
  have hreaders : sorted.forM (atBlock (checkReaders sorted terminal)) = .ok () :=
    forM_eq_ok_iff.mpr fun b hb => atBlock_eq_ok_iff.mpr (h.readers_ok b hb)
  rw [ofBlocks, hempty, h.collected]
  dsimp only [bind, Except.bind]
  rw [hany, hblocks, hreaders]
  cases checkAcyclic sorted <;> rfl

/-! ## Refused blocks -/

theorem ne_cycle_of_foldlM_collect {start : List Block} {e : PlannerError}
    (h : blocks.foldlM (collect query) start = .error e) :
    ∀ id, e ≠ .planning id .cycle := by
  induction blocks generalizing start with
  | nil => cases h
  | cons b blocks ih =>
    rw [List.foldlM_cons] at h
    cases hcollect : collect query start b with
    | ok next =>
      rw [hcollect] at h
      exact ih h
    | error e' =>
      rw [hcollect] at h
      cases h
      unfold collect at hcollect
      split at hcollect
      · cases hcollect
        exact fun id => nofun
      · split at hcollect
        · cases hcollect
          exact fun id => nofun
        · cases hcollect

theorem checkReads_ne_cycle {id : BlockId} {seen : List UInt32} {inputs : List BlockId} :
    checkReads blocks id seen inputs ≠ .error .cycle := by
  induction inputs generalizing seen with
  | nil => exact nofun
  | cons input rest ih =>
    rw [checkReads]
    split
    · exact nofun
    · split
      · exact nofun
      · split
        · exact nofun
        · exact ih

theorem checkBlock_ne_cycle (blocks : List Block) (terminal : BlockId) (b : Block) :
    checkBlock blocks terminal b ≠ .error .cycle := by
  rw [checkBlock]
  cases hreads : checkReads blocks b.id [] b.inputs with
  | error e =>
    intro h
    cases h
    exact checkReads_ne_cycle hreads
  | ok u =>
    change (if numberSet b.plan.scannedBlocks ≠ numberSet (b.inputs.map (·.seq)) then
      Except.error (PlanFault.scansDiffer _ _) else _) ≠ _
    split
    · exact nofun
    · by_cases hterminal : b.id = terminal <;> by_cases houtput : b.output = .none <;>
        simp [hterminal, houtput] <;> exact nofun

theorem checkReaders_ne_cycle (blocks : List Block) (terminal : BlockId) (b : Block) :
    checkReaders blocks terminal b ≠ .error .cycle := by
  rw [checkReaders]
  split
  · exact nofun
  · split <;> exact nofun

/-- All blocks pass a check, or the first one that does not gives the error. -/
theorem forM_atBlock_or (blocks : List Block) {check : Block → Except PlanFault Unit}
    (hcheck : ∀ b, check b ≠ .error .cycle) :
    (∀ b ∈ blocks, check b = .ok ()) ∨
      ∃ e, blocks.forM (atBlock check) = .error e ∧ ∀ id, e ≠ .planning id .cycle := by
  induction blocks with
  | nil => exact Or.inl fun b hb => absurd hb List.not_mem_nil
  | cons b blocks ih =>
    rw [List.forM_eq_forM] at ih ⊢
    rw [List.forM_cons, List.forall_mem_cons, atBlock]
    cases hb : check b with
    | error f =>
      refine Or.inr ⟨.planning (some b.id) f, rfl, ?_⟩
      intro id h
      cases h
      exact hcheck b hb
    | ok u => exact ih.imp_left fun hall => ⟨rfl, hall⟩

/-- Blocks get as far as the search for cycles, or another fault is found first. -/
theorem checked_or_error (query : QueryId) (blocks : List Block) (terminal : BlockId) :
    (∃ sorted, Checked query blocks terminal sorted) ∨
      ∃ e, ofBlocks query blocks terminal = .error e ∧ ∀ id, e ≠ .planning id .cycle := by
  rw [ofBlocks]
  cases hempty : blocks.isEmpty with
  | true => exact Or.inr ⟨_, rfl, fun id => nofun⟩
  | false =>
    rw [List.isEmpty_eq_false_iff] at hempty
    rw [if_neg Bool.false_ne_true]
    dsimp only [bind, Except.bind]
    cases hfold : blocks.foldlM (collect query) [] with
    | error e => exact Or.inr ⟨e, rfl, ne_cycle_of_foldlM_collect hfold⟩
    | ok sorted =>
      dsimp only
      by_cases hterminal : terminal ∈ sorted.map Block.id
      · rw [any_id_iff.mpr hterminal, Bool.not_true, if_neg Bool.false_ne_true]
        rcases forM_atBlock_or sorted (checkBlock_ne_cycle sorted terminal)
          with hblocks | ⟨e, hblocks, he⟩
        · rcases forM_atBlock_or sorted (checkReaders_ne_cycle sorted terminal)
            with hreaders | ⟨e, hreaders, he⟩
          · exact Or.inl ⟨sorted, hempty, hfold, hterminal, hblocks, hreaders⟩
          · rw [forM_eq_ok_iff.mpr fun b hb => atBlock_eq_ok_iff.mpr (hblocks b hb), hreaders]
            exact Or.inr ⟨e, rfl, he⟩
        · rw [hblocks]
          exact Or.inr ⟨e, rfl, he⟩
      · have hany : (!sorted.any (·.id == terminal)) = true := by
          rw [Bool.not_eq_true', ← Bool.not_eq_true, any_id_iff]
          exact hterminal
        rw [if_pos hany]
        exact Or.inr ⟨_, rfl, fun id => nofun⟩

theorem exists_checked_of_ok (h : ofBlocks query blocks terminal = .ok p) :
    ∃ sorted, Checked query blocks terminal sorted ∧ checkAcyclic sorted = .ok () ∧
      p = ⟨query, sorted, terminal⟩ := by
  rcases checked_or_error query blocks terminal with ⟨sorted, hchecked⟩ | ⟨e, he, -⟩
  · rw [hchecked.ofBlocks_eq] at h
    cases hacyclic : checkAcyclic sorted with
    | error e =>
      rw [hacyclic] at h
      cases h
    | ok u =>
      rw [hacyclic] at h
      cases h
      exact ⟨sorted, hchecked, hacyclic, rfl⟩
  · rw [he] at h
    cases h

/-! ## What has been checked -/

theorem Checked.spec (h : Checked query blocks terminal sorted) :
    sorted.Perm blocks ∧ (sorted.map (·.id)).Nodup ∧ ∀ b ∈ sorted, b.id.query = query :=
  foldlM_collect h.collected ⟨List.nodup_nil, by simp⟩

theorem Checked.reads (h : Checked query blocks terminal sorted) {b : Block} (hb : b ∈ sorted) :
    (∀ i ∈ b.inputs, i ≠ b.id ∧ i ∈ sorted.map (·.id)) ∧ (b.inputs.map (·.seq)).Nodup := by
  obtain ⟨hinputs, hnodup⟩ := checkReads_eq_ok_iff.mp (checkBlock_eq_ok_iff.mp (h.blocks_ok b hb)).1
  exact ⟨fun i hi => ⟨(hinputs i hi).1, (hinputs i hi).2.1⟩, hnodup⟩

theorem Checked.distinct (h : Checked query blocks terminal sorted) : Distinct sorted :=
  ⟨h.spec.2.1, fun _ hb => (h.reads hb).2.of_map⟩

theorem Checked.scanned (h : Checked query blocks terminal sorted) {b : Block} (hb : b ∈ sorted)
    (seq : UInt32) : seq ∈ b.plan.scannedBlocks ↔ seq ∈ b.inputs.map (·.seq) :=
  numberSet_eq_iff.mp (checkBlock_eq_ok_iff.mp (h.blocks_ok b hb)).2.1 seq

theorem Checked.isRead (h : Checked query blocks terminal sorted) {b : Block} (hb : b ∈ sorted)
    (hne : b.id ≠ terminal) : ∃ c ∈ sorted, b.id ∈ c.inputs := by
  by_contra hnone
  refine hne ((checkReaders_eq_ok_iff.mp (h.readers_ok b hb)).mpr ?_)
  exact fun c hc hmem => hnone ⟨c, hc, hmem⟩

theorem Checked.terminalUnread (h : Checked query blocks terminal sorted) {b : Block}
    (hb : b ∈ sorted) : terminal ∉ b.inputs := by
  obtain ⟨t, ht, hid⟩ := List.mem_map.mp h.terminal_mem
  exact hid ▸ (checkReaders_eq_ok_iff.mp (h.readers_ok t ht)).mp hid b hb

end Checked

/-- Blocks that are accepted make up a well-formed plan. -/
theorem wellFormed_of_ofBlocks {query : QueryId} {blocks : List Block} {terminal : BlockId}
    {p : MasterPlan} (h : ofBlocks query blocks terminal = .ok p) :
    p.WellFormed ∧ p.query = query ∧ p.terminal = terminal ∧ p.blocks.Perm blocks := by
  obtain ⟨sorted, hchecked, hacyclic, rfl⟩ := exists_checked_of_ok h
  obtain ⟨hperm, -, hquery⟩ := hchecked.spec
  refine ⟨⟨hquery, hchecked.distinct, hchecked.terminal_mem, ?_, ?_, ?_, ?_, ?_, ?_⟩, rfl, rfl,
    hperm⟩
  · exact fun b hb i hi => ((hchecked.reads hb).1 i hi).2
  · exact fun b hb hself => ((hchecked.reads hb).1 b.id hself).1 rfl
  · exact fun b hb => hchecked.scanned hb
  · exact fun b hb => hchecked.isRead hb
  · exact fun b hb => hchecked.terminalUnread hb
  · exact checkAcyclic_eq_ok_iff.mp hacyclic

/-! ## The order of a plan -/

/-- Whether each of some blocks comes behind the blocks that it reads, if others
have come before. -/
def InputsFirst : List BlockId → List Block → Prop
  | _, [] => True
  | done, b :: bs => (∀ i ∈ b.inputs, i ∈ done) ∧ InputsFirst (done ++ [b.id]) bs

variable {p : MasterPlan}

theorem WellFormed.block?_of_mem (h : p.WellFormed) {b : Block} (hb : b ∈ p.blocks) :
    p.block? b.id = some b := by
  rw [block?]
  have hfind : (p.blocks.find? (·.id == b.id)).isSome = true :=
    List.find?_isSome.mpr ⟨b, hb, beq_self_eq_true b.id⟩
  obtain ⟨c, hc⟩ := Option.isSome_iff_exists.mp hfind
  have hid : c.id = b.id := by simpa using List.find?_some hc
  rw [hc, h.distinct.eq_of_id (List.mem_of_find?_eq_some hc) hb hid]

theorem WellFormed.eq_of_seq (h : p.WellFormed) {a b : Block} (ha : a ∈ p.blocks)
    (hb : b ∈ p.blocks) (hseq : a.id.seq = b.id.seq) : a = b := by
  apply h.distinct.eq_of_id ha hb
  have hquery := (h.query a ha).trans (h.query b hb).symm
  cases ha' : a.id
  cases hb' : b.id
  simp_all

theorem WellFormed.nodup_seqs (h : p.WellFormed) : (p.blocks.map fun b => b.id.seq).Nodup := by
  refine List.Nodup.map_on ?_ (List.Nodup.of_map _ h.distinct.ids)
  exact fun a ha b hb hseq => h.eq_of_seq ha hb hseq

/-- Blocks looked up by their ids come behind their inputs if the ids do. -/
theorem WellFormed.inputsFirst_filterMap (h : p.WellFormed) {done ids : List BlockId}
    (hids : ∀ id ∈ ids, id ∈ p.blocks.map (·.id))
    (hordered : BlockCursor.InputsFirst p.blocks done ids) :
    InputsFirst done (ids.filterMap p.block?) ∧ (ids.filterMap p.block?).map (·.id) = ids := by
  induction ids generalizing done with
  | nil => exact ⟨trivial, rfl⟩
  | cons id ids ih =>
    obtain ⟨hinputs, hrest⟩ := hordered
    obtain ⟨b, hb, rfl⟩ := List.mem_map.mp (hids id List.mem_cons_self)
    obtain ⟨hfirst, hmap⟩ := ih (fun i hi => hids i (List.mem_cons_of_mem _ hi)) hrest
    rw [List.filterMap_cons_some (h.block?_of_mem hb)]
    exact ⟨⟨hinputs b hb rfl, hfirst⟩, by rw [List.map_cons, hmap]⟩

/-- The blocks of a plan are run once each and behind their inputs. -/
theorem WellFormed.order_spec (h : p.WellFormed) :
    p.order.Perm p.blocks ∧ InputsFirst [] p.order := by
  obtain ⟨hnodup, hsubset, hordered⟩ := BlockCursor.drain_spec h.distinct
  obtain ⟨hfirst, hids⟩ := h.inputsFirst_filterMap hsubset hordered
  refine ⟨?_, hfirst⟩
  have hlength : p.blocks.length ≤ p.order.length := by
    have hlen := congrArg List.length hids
    rw [List.length_map] at hlen
    exact (h.acyclic.symm.trans hlen.symm).le
  have hsubperm : p.order.Subperm p.blocks := by
    apply List.Nodup.subperm
    · refine List.Nodup.of_map (·.id) ?_
      rw [order, cursor, hids]
      exact hnodup
    · intro b hb
      obtain ⟨id, _, hid⟩ := List.mem_filterMap.mp hb
      exact List.mem_of_find?_eq_some hid
  exact hsubperm.perm_of_length_le hlength

end BlockQuery.MasterPlan
