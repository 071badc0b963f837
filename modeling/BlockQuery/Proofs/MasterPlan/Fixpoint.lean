import BlockQuery.Proofs.MasterPlan.Contraction
import BlockQuery.Proofs.Plan.Nodes

/-!
# Improvement comes to an end

A fusion takes a block away, but may undo the mark that its child has had: the
child hands on its rows as the parent did.  Hence blocks count twice as long as
their rows do not go to everyone.  Each use of a rule lowers this count, and
none is refused, so that nothing but the cap stops an improvement early.
-/

namespace BlockQuery

namespace MasterPlan

variable {p next last : MasterPlan} {parent child b target : Block} {threshold : UInt64}

/-! ## Which block is marked -/

theorem foldl_eq_or_exists {α : Type} {f : Option α → α → Option α}
    (hf : ∀ best a, f best a = best ∨ f best a = some a) (xs : List α) (best : Option α) :
    xs.foldl f best = best ∨ ∃ a ∈ xs, xs.foldl f best = some a := by
  induction xs generalizing best with
  | nil => exact Or.inl rfl
  | cons x xs ih =>
    rw [List.foldl_cons]
    rcases ih (f best x) with hkept | ⟨a, ha, hfound⟩
    · rw [hkept]
      exact (hf best x).imp_right fun hx => ⟨x, List.mem_cons_self, hx⟩
    · exact Or.inr ⟨a, List.mem_cons_of_mem x ha, hfound⟩

theorem smallest?_eq_none_or (sides : List (UInt64 × Block)) :
    smallest? sides = none ∨ ∃ side ∈ sides, smallest? sides = some side := by
  refine foldl_eq_or_exists ?_ sides none
  intro best a
  cases best with
  | none => exact Or.inr rfl
  | some b =>
    dsimp only
    split
    · exact Or.inr rfl
    · exact Or.inl rfl

theorem mem_of_smallest? {sides : List (UInt64 × Block)} {side : UInt64 × Block}
    (h : smallest? sides = some side) : side ∈ sides := by
  rcases smallest?_eq_none_or sides with hnone | ⟨found, hmem, hfound⟩
  · cases hnone.symm.trans h
  · cases hfound.symm.trans h
    exact hmem

theorem mem_of_broadcastSides {type : JoinType} {left right : Block}
    (h : b ∈ broadcastSides type left right) : b = left ∨ b = right := by
  cases type <;> simp_all [broadcastSides]

/-- A block that is to be marked has not been, and is read. -/
theorem broadcastSide?_spec (h : p.broadcastSide? threshold b = some target) :
    target ∈ p.blocks ∧ target.output ≠ .broadcast ∧ target.id.seq ∈ b.plan.scannedBlocks := by
  obtain ⟨found, hfound, h⟩ := Option.bind_eq_some_iff.mp h
  obtain ⟨left, hleft, h⟩ := Option.bind_eq_some_iff.mp h
  obtain ⟨right, hright, h⟩ := Option.bind_eq_some_iff.mp h
  split at h
  next => cases h
  next hunmarked =>
    rw [not_or] at hunmarked
    obtain ⟨⟨rows, side⟩, hsmallest, rfl⟩ := Option.map_eq_some_iff.mp h
    have hside := List.mem_of_mem_filter (mem_of_smallest? hsmallest)
    obtain ⟨side', hside', hrows⟩ := List.mem_filterMap.mp hside
    obtain ⟨rows', -, heq⟩ := Option.map_eq_some_iff.mp hrows
    cases heq
    obtain ⟨hscanl, hscanr⟩ := Plan.mem_scannedBlocks_of_blockJoin? hfound
    have hseq : ∀ {n : UInt32} {c : Block}, p.blockOfSeq? n = some c → c ∈ p.blocks ∧ c.id.seq = n := by
      intro n c hc
      have hid : c.id = ⟨p.query, n⟩ := by simpa using List.find?_some hc
      exact ⟨List.mem_of_find?_eq_some hc, congrArg BlockId.seq hid⟩
    rcases mem_of_broadcastSides (List.mem_of_mem_filter hside') with rfl | rfl
    · obtain ⟨hmem, hleftseq⟩ := hseq hleft
      exact ⟨hmem, hunmarked.1, hleftseq ▸ hscanl⟩
    · obtain ⟨hmem, hrightseq⟩ := hseq hright
      exact ⟨hmem, hunmarked.2, hrightseq ▸ hscanr⟩

theorem markBroadcast_cases (hwell : p.WellFormed) (threshold : UInt64) :
    p.markBroadcast threshold = .ok none ∨
      ∃ target ∈ p.blocks, target.output ≠ .broadcast ∧ target.id ≠ p.terminal ∧
        p.markBroadcast threshold =
          (ofBlocks p.query (p.markedBlocks target) p.terminal).map some := by
  rw [markBroadcast]
  cases hfind : p.blocks.findSome? (p.broadcastSide? threshold) with
  | none => exact Or.inl rfl
  | some target =>
    obtain ⟨b, hb, hside⟩ := List.exists_of_findSome?_eq_some hfind
    obtain ⟨htarget, hunmarked, hscanned⟩ := broadcastSide?_spec hside
    refine Or.inr ⟨target, htarget, hunmarked, ?_, ?_⟩
    · intro hterminal
      apply hwell.terminalUnread b hb
      obtain ⟨i, hi, hseq⟩ := List.mem_map.mp ((hwell.scanned b hb _).mp hscanned)
      obtain ⟨c, hc, rfl⟩ := List.mem_map.mp (hwell.inputs b hb i hi)
      rwa [← hterminal, ← hwell.eq_of_seq hc htarget hseq]
    · rw [markedBlocks_eq]

/-- Blocks stay valid if they hand on their rows in another way, unless this makes another block
the terminal one. -/
theorem Valid.map_output {query : QueryId} {blocks : List Block} {terminal : BlockId}
    (h : Valid query blocks terminal) {f : Block → Shuffle}
    (hnone : ∀ b ∈ blocks, f b = .none ↔ b.output = .none) :
    Valid query (blocks.map fun b => { b with output := f b }) terminal := by
  have hids : (blocks.map fun b => { b with output := f b }).map Block.id = blocks.map Block.id := by
    simp
  have hreads : Block.Reads (blocks.map fun b => { b with output := f b }) = Block.Reads blocks := by
    funext id input
    simp [Block.Reads]
  refine ⟨by simpa using h.nonempty, ?_, hids ▸ h.ids_nodup, hids ▸ h.terminal_mem, ?_, ?_, ?_, ?_,
    ?_, ?_, ?_, ?_⟩
  · exact List.forall_mem_map.mpr h.query_eq
  · exact List.forall_mem_map.mpr h.inputs_nodup
  · rw [hids]
    exact List.forall_mem_map.mpr h.inputs_mem
  · exact List.forall_mem_map.mpr h.inputs_ne
  · exact List.forall_mem_map.mpr h.scanned
  · exact List.forall_mem_map.mpr fun b hb => (hnone b hb).trans (h.output b hb)
  · exact List.forall_mem_map.mpr h.terminal_unread
  · refine List.forall_mem_map.mpr fun b hb hne => ?_
    obtain ⟨c, hc, hread⟩ := h.others_read b hb hne
    exact ⟨_, List.mem_map_of_mem hc, hread⟩
  · rw [Block.Cyclic, hreads]
    exact h.acyclic

theorem Valid.marked (h : Valid p.query p.blocks p.terminal) (hne : target.id ≠ p.terminal) :
    Valid p.query (p.markedBlocks target) p.terminal := by
  apply h.map_output
  intro b hb
  by_cases hid : b.id = target.id
  · rw [if_pos hid, h.output b hb, hid]
    exact iff_of_false nofun hne
  · rw [if_neg hid]

/-! ## What a use of a rule lowers -/

/-- The blocks, and once more those whose rows do not go to everyone. -/
def rank (blocks : List Block) : ℕ :=
  blocks.length + blocks.countP fun b => b.output ≠ .broadcast

theorem rank_congr {xs ys : List Block} (h : xs.Perm ys) : rank xs = rank ys := by
  rw [rank, rank, h.length_eq, h.countP_eq]

theorem rank_cons (b : Block) (blocks : List Block) :
    rank (b :: blocks) = rank blocks + 1 + if b.output ≠ .broadcast then 1 else 0 := by
  simp only [rank, List.length_cons, List.countP_cons, decide_eq_true_eq]
  omega

theorem rank_map_of_output {f : Block → Block} {blocks : List Block}
    (h : ∀ b ∈ blocks, (f b).output = b.output) : rank (blocks.map f) = rank blocks := by
  rw [rank, rank, List.length_map, List.countP_map]
  congr 1
  apply List.countP_congr
  intro b hb
  simp [h b hb]

theorem rank_le (blocks : List Block) : rank blocks ≤ 2 * blocks.length := by
  have hle : blocks.countP (fun b => b.output ≠ .broadcast) ≤ blocks.length := List.countP_le_length
  rw [rank]
  omega

/-- The rows of the terminal block do not go to everyone. -/
theorem Valid.two_le_rank {query : QueryId} {blocks : List Block} {terminal : BlockId}
    (h : Valid query blocks terminal) : 2 ≤ rank blocks := by
  obtain ⟨t, ht, hid⟩ := List.mem_map.mp h.terminal_mem
  have houtput : t.output = .none := (h.output t ht).mpr hid
  have hlength := List.length_pos_of_mem ht
  have hcount : 0 < blocks.countP fun b => b.output ≠ .broadcast :=
    List.countP_pos_iff.mpr ⟨t, ht, by simp [houtput]⟩
  rw [rank]
  omega

/-- A block and the others, which can be told from it. -/
theorem exists_perm_cons {blocks : List Block} (hids : (blocks.map Block.id).Nodup)
    (hb : b ∈ blocks) : ∃ rest, blocks.Perm (b :: rest) ∧ ∀ c ∈ rest, c.id ≠ b.id := by
  have hperm := List.perm_cons_erase hb
  refine ⟨blocks.erase b, hperm, fun c hc heq => ?_⟩
  have hnodup := (hperm.map Block.id).nodup_iff.mp hids
  rw [List.map_cons, List.nodup_cons] at hnodup
  exact hnodup.1 (heq ▸ List.mem_map_of_mem hc)

/-- The child may lose its mark, but the parent has counted for itself. -/
theorem Fusion.rank_lt (h : Fusion p parent child) (hwell : p.WellFormed) :
    rank (p.fusedBlocks parent child) < rank p.blocks := by
  -- with the parent and the child split off, the rest hands on its rows as before
  obtain ⟨others, hothers, hparent⟩ := exists_perm_cons hwell.distinct.ids h.parent_mem
  have hkept : (p.blocks.filter fun b => b.id ≠ parent.id).Perm others := by
    have hall : (parent :: others).filter (fun b => b.id ≠ parent.id) = others := by
      simpa using hparent
    exact hall ▸ hothers.filter _
  have hids : (others.map Block.id).Nodup :=
    (hkept.map Block.id).nodup_iff.mp ((List.filter_sublist.map _).nodup hwell.distinct.ids)
  have hchild : child ∈ others := hkept.mem_iff.mp (by simp [h.child_mem, h.child_ne hwell])
  obtain ⟨rest, hrest, hne⟩ := exists_perm_cons hids hchild
  have hbefore : rank p.blocks = rank (parent :: child :: rest) :=
    rank_congr (hothers.trans (hrest.cons parent))
  have hafter : rank (p.fusedBlocks parent child) =
      rank (fused parent child :: rest.map (afterFusion parent child)) := by
    rw [← afterFusion_child, ← List.map_cons]
    exact rank_congr ((hkept.trans hrest).map _)
  have hsame : rank (rest.map (afterFusion parent child)) = rank rest :=
    rank_map_of_output fun b hb => Fusion.output_afterFusion (hne b hb)
  have houtput : (fused parent child).output = parent.output := rfl
  simp only [hbefore, hafter, rank_cons, hsame, houtput]
  omega

theorem rank_markedBlocks (hwell : p.WellFormed) (htarget : target ∈ p.blocks)
    (hunmarked : target.output ≠ .broadcast) : rank (p.markedBlocks target) < rank p.blocks := by
  obtain ⟨rest, hrest, hne⟩ := exists_perm_cons hwell.distinct.ids htarget
  have hbefore : rank p.blocks = rank (target :: rest) := rank_congr hrest
  have hafter : rank (p.markedBlocks target) = rank ((target :: rest).map fun b =>
      { b with output := if b.id = target.id then .broadcast else b.output }) :=
    rank_congr (hrest.map _)
  have hsame : rank (rest.map fun b =>
      { b with output := if b.id = target.id then .broadcast else b.output }) = rank rest :=
    rank_map_of_output fun b hb => if_neg (hne b hb)
  rw [hbefore, hafter, List.map_cons, rank_cons, rank_cons, hsame, if_pos hunmarked,
    if_neg (by simp)]
  omega

/-! ## One use of a rule -/

/-- Whether a step may lead from a plan to the next one. -/
structure Descends (p next : MasterPlan) : Prop where
  valid : Valid next.query next.blocks next.terminal
  rank_lt : rank next.blocks < rank p.blocks

theorem exists_descends {query : QueryId} {blocks : List Block} {terminal : BlockId}
    (hvalid : Valid query blocks terminal) (hlt : rank blocks < rank p.blocks) :
    ∃ next, ofBlocks query blocks terminal = .ok next ∧ Descends p next := by
  obtain ⟨next, hnext⟩ := hvalid.exists_ofBlocks
  obtain ⟨-, -, -, hperm⟩ := wellFormed_of_ofBlocks hnext
  exact ⟨next, hnext, valid_of_ofBlocks hnext, (rank_congr hperm).trans_lt hlt⟩

theorem exists_result? (rule : PlanRule) (hvalid : Valid p.query p.blocks p.terminal) :
    ∃ result, rule.result? p = .ok result ∧ ∀ next ∈ result, Descends p next := by
  have hwell := hvalid.wellFormed
  cases rule with
  | fusion =>
    rcases fuse_cases p with hnone | ⟨parent, child, hfusion, heq⟩ | ⟨parent, hparent, i, hi, hmissing, -⟩
    · exact ⟨none, hnone, nofun⟩
    · obtain ⟨next, hnext, hstep⟩ := exists_descends (hfusion.valid hvalid) (hfusion.rank_lt hwell)
      exact ⟨some next, by rw [PlanRule.result?, heq, hnext]; rfl, by simpa using hstep⟩
    · obtain ⟨c, hc, rfl⟩ := List.mem_map.mp (hwell.inputs parent hparent i hi)
      rw [hwell.block?_of_mem hc] at hmissing
      cases hmissing
  | broadcasting threshold =>
    rcases markBroadcast_cases hwell threshold with hnone | ⟨target, htarget, hunmarked, hne, heq⟩
    · exact ⟨none, hnone, nofun⟩
    · obtain ⟨next, hnext, hstep⟩ :=
        exists_descends (hvalid.marked hne) (rank_markedBlocks hwell htarget hunmarked)
      exact ⟨some next, by rw [PlanRule.result?, heq, hnext]; rfl, by simpa using hstep⟩

theorem exists_first? (rules : List PlanRule) (hvalid : Valid p.query p.blocks p.terminal) :
    ∃ result, PlanRule.first? rules p = .ok result ∧ ∀ found ∈ result, Descends p found.2 := by
  induction rules with
  | nil => exact ⟨none, rfl, nofun⟩
  | cons rule rules ih =>
    obtain ⟨result, hresult, hstep⟩ := exists_result? rule hvalid
    rw [PlanRule.first?, hresult]
    cases result with
    | none => exact ih
    | some next => exact ⟨some (rule, next), rfl, by simpa using hstep⟩

/-! ## Chains of uses -/

/-- Uses of rules, one after the other, that lead from a plan to another one. -/
inductive Chain (rules : List PlanRule) : MasterPlan → List RuleUse → MasterPlan → Prop
  | refl (p : MasterPlan) : Chain rules p [] p
  | use {p next last : MasterPlan} {rule : PlanRule} {uses : List RuleUse}
    (first : PlanRule.first? rules p = .ok (some (rule, next))) (rest : Chain rules next uses last) :
    Chain rules p (⟨rule, next.blocks.length⟩ :: uses) last

section Chain

variable {rules : List PlanRule} {uses : List RuleUse}

theorem descends_of_first? {rule : PlanRule} (hvalid : Valid p.query p.blocks p.terminal)
    (h : PlanRule.first? rules p = .ok (some (rule, next))) : Descends p next := by
  obtain ⟨result, hresult, hstep⟩ := exists_first? rules hvalid
  cases hresult.symm.trans h
  exact hstep _ rfl

theorem Chain.valid_and_length_le (h : Chain rules p uses last)
    (hvalid : Valid p.query p.blocks p.terminal) :
    Valid last.query last.blocks last.terminal ∧
      uses.length + rank last.blocks ≤ rank p.blocks := by
  induction h with
  | refl => exact ⟨hvalid, by simp⟩
  | use first rest ih =>
    have hstep := descends_of_first? hvalid first
    obtain ⟨hlast, hlength⟩ := ih hstep.valid
    refine ⟨hlast, ?_⟩
    have hlt := hstep.rank_lt
    rw [List.length_cons]
    omega

/-- Induct on the rank: as long as a rule fires, it leads to a plan of a smaller one. -/
theorem exists_chain (rules : List PlanRule) (hvalid : Valid p.query p.blocks p.terminal) :
    ∃ uses last, Chain rules p uses last ∧ PlanRule.first? rules last = .ok none := by
  induction hrank : rank p.blocks using Nat.strong_induction_on generalizing p with
  | _ n ih =>
    subst hrank
    obtain ⟨result, hresult, hstep⟩ := exists_first? rules hvalid
    cases result with
    | none => exact ⟨[], p, .refl p, hresult⟩
    | some found =>
      have hdescends := hstep found rfl
      obtain ⟨uses, last, hchain, hlast⟩ := ih _ hdescends.rank_lt hdescends.valid rfl
      exact ⟨_, last, .use hresult hchain, hlast⟩

theorem improveFrom_of_first? {rule : PlanRule} (cap left : ℕ)
    (h : PlanRule.first? rules p = .ok (some (rule, next))) :
    improveFrom rules cap (left + 1) p =
      (⟨rule, next.blocks.length⟩ :: (improveFrom rules cap left next).1,
        (improveFrom rules cap left next).2) := by
  rw [improveFrom, h]

theorem Chain.improveFrom_of_le (h : Chain rules p uses last)
    (hlast : PlanRule.first? rules last = .ok none) {cap left : ℕ} (hle : uses.length ≤ left) :
    improveFrom rules cap left p = (uses, .ok last) := by
  induction h generalizing left with
  | refl =>
    unfold improveFrom
    rw [hlast]
  | use first rest ih =>
    cases left with
    | zero => cases hle
    | succ left =>
      rw [List.length_cons, Nat.succ_le_succ_iff] at hle
      rw [improveFrom_of_first? cap left first, ih hlast hle]

/-- One use too many is refused, by the name of its rule. -/
theorem Chain.improveFrom_of_lt (h : Chain rules p uses last) {cap left : ℕ}
    (hlt : left < uses.length) : improveFrom rules cap left p =
      (uses.take left, .error (.limit cap (uses.get ⟨left, hlt⟩).rule.name)) := by
  induction h generalizing left with
  | refl => cases hlt
  | use first rest ih =>
    cases left with
    | zero =>
      rw [improveFrom, first]
      rfl
    | succ left =>
      rw [improveFrom_of_first? cap left first, ih (Nat.lt_of_succ_lt_succ hlt)]
      rfl

end Chain

section Improve

variable {query : QueryId} {blocks : List Block} {terminal : BlockId}

/-- The standard rules refuse no plan that is reached, and use up what they lower: with enough uses
allowed they come to a plan that they leave as it is, and with fewer the cap is what is reported. -/
theorem improve_standard (h : ofBlocks query blocks terminal = .ok p) (threshold : UInt64) :
    (∀ uses last, Chain (PlanRule.standard threshold) p uses last →
      uses.length ≤ 2 * blocks.length - 2 ∧
      ∀ rule ∈ PlanRule.standard threshold, ∃ result, rule.result? last = .ok result) ∧
    ∃ uses last, Chain (PlanRule.standard threshold) p uses last ∧
      (∀ cap, 2 * blocks.length - 2 ≤ cap →
        p.improve (PlanRule.standard threshold) cap = (uses, .ok last)) ∧
      (∀ cap, uses.length ≤ cap →
        p.improve (PlanRule.standard threshold) cap = (uses, .ok last)) ∧
      (∀ cap (hlt : cap < uses.length), p.improve (PlanRule.standard threshold) cap =
        (uses.take cap, .error (.limit cap (uses.get ⟨cap, hlt⟩).rule.name))) ∧
      (∀ cap, (∃ e, (p.improve (PlanRule.standard threshold) cap).2 = .error e ∧
        e.code = "TESSERA_OPTIMIZATION_LIMIT_EXCEEDED") ↔ cap < uses.length) ∧
      ∀ cap, last.improve (PlanRule.standard threshold) cap = ([], .ok last) := by
  obtain ⟨-, -, -, hperm⟩ := wellFormed_of_ofBlocks h
  have hvalid := valid_of_ofBlocks h
  have hbound : ∀ uses last, Chain (PlanRule.standard threshold) p uses last →
      uses.length ≤ 2 * blocks.length - 2 ∧
      ∀ rule ∈ PlanRule.standard threshold, ∃ result, rule.result? last = .ok result := by
    intro uses last hchain
    obtain ⟨hlast, hlength⟩ := hchain.valid_and_length_le hvalid
    refine ⟨?_, fun rule _ => ?_⟩
    · have hstart := rank_le p.blocks
      have hend := hlast.two_le_rank
      rw [hperm.length_eq] at hstart
      omega
    · obtain ⟨result, hresult, -⟩ := exists_result? rule hlast
      exact ⟨result, hresult⟩
  obtain ⟨uses, last, hchain, hlast⟩ := exists_chain (PlanRule.standard threshold) hvalid
  have henough : ∀ cap, uses.length ≤ cap →
      p.improve (PlanRule.standard threshold) cap = (uses, .ok last) :=
    fun cap hle => hchain.improveFrom_of_le hlast hle
  have hfew : ∀ cap (hlt : cap < uses.length), p.improve (PlanRule.standard threshold) cap =
      (uses.take cap, .error (.limit cap (uses.get ⟨cap, hlt⟩).rule.name)) :=
    fun cap hlt => hchain.improveFrom_of_lt hlt
  refine ⟨hbound, uses, last, hchain, ?_, henough, hfew, ?_, ?_⟩
  · intro cap hcap
    exact henough cap ((hbound uses last hchain).1.trans hcap)
  · intro cap
    constructor
    · rintro ⟨e, he, -⟩
      by_contra hle
      rw [henough cap (Nat.le_of_not_lt hle)] at he
      cases he
    · intro hlt
      rw [hfew cap hlt]
      exact ⟨_, rfl, rfl⟩
  · intro cap
    exact (Chain.refl last).improveFrom_of_le hlast (Nat.zero_le cap)

end Improve

/-! A join of a table with one that another block passes on: the block is fused, then the side with
fewer rows is marked. -/

namespace SmallJoin

open Diamond (rows id)

def blocks : List Block :=
  [⟨id 1, [], .hash [], some 5, .scan ⟨.table "t", rows, none, some 5⟩⟩,
    ⟨id 2, [id 1], .hash [], none, .scanBlock 1 rows none⟩,
    ⟨id 3, [], .hash [], some 7, .scan ⟨.table "u", rows, none, some 7⟩⟩,
    ⟨id 4, [id 2, id 3], .none, none,
      .joining (.scanBlock 2 rows none) (.scanBlock 3 rows none) .cross none⟩]

theorem exists_uses : ∃ p, ofBlocks Diamond.query blocks (id 4) = .ok p ∧
    (p.improve (PlanRule.standard 10) 6).1.map RuleUse.rule = [.fusion, .broadcasting 10] := by
  have hrun : (ofBlocks Diamond.query blocks (id 4)).toOption.map
      (fun p => (p.improve (PlanRule.standard 10) 6).1.map RuleUse.rule) =
        some [.fusion, .broadcasting 10] := by decide +kernel
  obtain ⟨p, hp, huses⟩ := Option.map_eq_some_iff.mp hrun
  exact ⟨p, Except.toOption_eq_some.mp hp, huses⟩

end SmallJoin

theorem improve_standard_smallJoin :
    ∃ p, ofBlocks Diamond.query SmallJoin.blocks (Diamond.id 4) = .ok p ∧
      ∃ uses last, p.improve (PlanRule.standard 10) 2 = (uses, .ok last) ∧
        uses.map RuleUse.rule = [.fusion, .broadcasting 10] ∧
        p.improve (PlanRule.standard 10) 1 =
          (uses.take 1, .error (.limit 1 "broadcast_join")) ∧
        last.improve (PlanRule.standard 10) 0 = ([], .ok last) := by
  obtain ⟨p, hp, hrules⟩ := SmallJoin.exists_uses
  obtain ⟨-, uses, last, -, hcap, henough, hfew, -, hstable⟩ := improve_standard hp 10
  rw [hcap 6 (by decide)] at hrules
  dsimp only at hrules
  have hlength : uses.length = 2 := by simpa using congrArg List.length hrules
  have hsecond : (uses.get ⟨1, by omega⟩).rule.name = "broadcast_join" := by
    obtain ⟨first, second, rfl⟩ := List.length_eq_two.mp hlength
    obtain ⟨-, hrule, -⟩ : first.rule = .fusion ∧ second.rule = .broadcasting 10 ∧ True := by
      simpa using hrules
    change second.rule.name = _
    rw [hrule]
    rfl
  refine ⟨p, hp, uses, last, henough 2 (by omega), hrules, ?_, hstable 0⟩
  rw [hfew 1 (by omega), hsecond]

end MasterPlan

end BlockQuery
