import BlockQuery.Proofs.MasterPlan.Fixpoint
import BlockQuery.Proofs.MasterPlan.Joins

/-!
# Which rows go to everyone

Of the two sides of a join at most one hands its rows to everyone: the smaller one of those whose
row hint is small enough, except that an outer join keeps its left side.  A mark stays for as long
as there is a rule to use, since the sides of a join are read by nobody else and are never fused.
When no rule fires any more, no join is left without the mark it calls for.
-/

namespace BlockQuery

/-! ## Small sides -/

/-- The row hint of a block, if it is not above a threshold. -/
def Block.smallHint? (threshold : UInt64) (b : Block) : Option UInt64 :=
  b.rowHint.filter (· ≤ threshold)

namespace MasterPlan

/-- Whether the left side of a join is the one to be handed to everyone. -/
def BroadcastsLeft (threshold : UInt64) (type : JoinType) (l r : Block) : Prop :=
  type ≠ .leftOuter ∧
    ∃ m, l.smallHint? threshold = some m ∧ ∀ n, r.smallHint? threshold = some n → m < n

/-- Whether the right side is, which comes first if both have the same hint. -/
def BroadcastsRight (threshold : UInt64) (type : JoinType) (l r : Block) : Prop :=
  ∃ n, r.smallHint? threshold = some n ∧
    (type ≠ .leftOuter → ∀ m, l.smallHint? threshold = some m → n ≤ m)

section Sides

variable {threshold : UInt64} {type : JoinType} {l r : Block}

theorem not_broadcastsLeft_and_right :
    ¬(BroadcastsLeft threshold type l r ∧ BroadcastsRight threshold type l r) := by
  rintro ⟨⟨htype, m, hm, hlt⟩, n, hn, hle⟩
  exact UInt64.not_lt.mpr (hle htype m hm) (hlt n hn)

theorem filter_filterMap_hints (threshold : UInt64) (sides : List Block) :
    (sides.filterMap fun side => side.rowHint.map fun rows => (rows, side)).filter
        (fun side => side.1 ≤ threshold) =
      sides.filterMap fun side => (side.smallHint? threshold).map fun rows => (rows, side) := by
  rw [List.filter_filterMap]
  apply List.filterMap_congr
  intro side _
  cases hint : side.rowHint with
  | none => simp [Block.smallHint?, hint]
  | some rows =>
    by_cases hle : rows ≤ threshold <;> simp [Block.smallHint?, hint, Option.filter, hle]

/-- The side that is chosen, if any. -/
def smallSide? (threshold : UInt64) (type : JoinType) (l r : Block) : Option Block :=
  (smallest? ((broadcastSides type l r).filterMap fun side =>
    (side.smallHint? threshold).map fun rows => (rows, side))).map Prod.snd

theorem smallest?_pair (hlt : l.id.seq < r.id.seq) (m n : UInt64) :
    smallest? [(m, l), (n, r)] = some (if n ≤ m then (n, r) else (m, l)) := by
  have hsmaller : isSmaller (n, r) (m, l) = true ↔ n ≤ m := by
    simp only [isSmaller, hlt, decide_true, Bool.and_true, Bool.or_eq_true, decide_eq_true_eq,
      beq_iff_eq]
    exact UInt64.le_iff_lt_or_eq.symm
  simp [smallest?, hsmaller, apply_ite some]

theorem smallSide?_cases (threshold : UInt64) (type : JoinType) (hlt : l.id.seq < r.id.seq) :
    (smallSide? threshold type l r = some l ∧ BroadcastsLeft threshold type l r) ∨
    (smallSide? threshold type l r = some r ∧ BroadcastsRight threshold type l r) ∨
    (smallSide? threshold type l r = none ∧ ¬BroadcastsLeft threshold type l r ∧
      ¬BroadcastsRight threshold type l r) := by
  cases type with
  | leftOuter =>
    cases hr : r.smallHint? threshold <;>
      simp [smallSide?, broadcastSides, smallest?, BroadcastsLeft, BroadcastsRight, hr]
  | inner | cross =>
    cases hl : l.smallHint? threshold with
    | none =>
      cases hr : r.smallHint? threshold <;>
        simp [smallSide?, broadcastSides, smallest?, BroadcastsLeft, BroadcastsRight, hl, hr]
    | some m =>
      cases hr : r.smallHint? threshold with
      | none =>
        simp [smallSide?, broadcastSides, smallest?, BroadcastsLeft, BroadcastsRight, hl, hr]
      | some n =>
        have hpair := smallest?_pair hlt m n
        by_cases hle : n ≤ m
        · rw [if_pos hle] at hpair
          simp [smallSide?, broadcastSides, BroadcastsLeft, BroadcastsRight, hl, hr, hpair, hle]
        · rw [if_neg hle] at hpair
          simp [smallSide?, broadcastSides, BroadcastsLeft, BroadcastsRight, hl, hr, hpair,
            UInt64.not_le.mp hle]

end Sides

/-! ## Joins of a plan -/

/-- Whether a block of a plan joins two others. -/
structure Joined (p : MasterPlan) (c : Block) (type : JoinType) (l r : Block) : Prop where
  mem : c ∈ p.blocks
  left_mem : l ∈ p.blocks
  right_mem : r ∈ p.blocks
  joins : c.Joins type l.id r.id

variable {p next built last : MasterPlan} {b c c' l l' r r' target : Block} {type type' : JoinType}
  {threshold : UInt64}

namespace Joined

theorem left_mem_inputs (h : p.Joined c type l r) : l.id ∈ c.inputs := by simp [h.joins.inputs]

theorem right_mem_inputs (h : p.Joined c type l r) : r.id ∈ c.inputs := by simp [h.joins.inputs]

/-- A block that is read by two joins is read by the same. -/
theorem eq_of_reads (horderly : p.Orderly) (h : p.Joined c type l r)
    (h' : p.Joined c' type' l' r') {i : BlockId} (hi : i ∈ c.inputs) (hi' : i ∈ c'.inputs) :
    type = type' ∧ l = l' ∧ r = r' := by
  obtain rfl := horderly.once c h.mem c' h'.mem i hi hi'
  have hinputs := h.joins.inputs.symm.trans h'.joins.inputs
  have hfound := Option.some.inj (h.joins.found.symm.trans h'.joins.found)
  simp only [List.cons.injEq, and_true] at hinputs
  have hdistinct := horderly.valid.wellFormed.distinct
  exact ⟨congrArg BlockJoin.type hfound, hdistinct.eq_of_id h.left_mem h'.left_mem hinputs.1,
    hdistinct.eq_of_id h.right_mem h'.right_mem hinputs.2⟩

theorem left_ne_right (h : p.Joined c type l r) : l ≠ r := by
  rintro rfl
  exact UInt32.lt_irrefl _ h.joins.lt

end Joined

namespace Orderly

theorem exists_joined (h : p.Orderly) (hc : c ∈ p.blocks) {left right : Plan}
    (hjoins : c.plan.Joins type left right) :
    ∃ l r, left.IsScanOf l.id.seq ∧ right.IsScanOf r.id.seq ∧ p.Joined c type l r := by
  obtain ⟨i, j, hleft, hright, hc'⟩ := h.joins c hc type left right hjoins
  obtain ⟨l, hl, rfl⟩ := List.mem_map.mp (h.valid.inputs_mem c hc i (by simp [hc'.inputs]))
  obtain ⟨r, hr, rfl⟩ := List.mem_map.mp (h.valid.inputs_mem c hc j (by simp [hc'.inputs]))
  exact ⟨l, r, hleft, hright, hc, hl, hr, hc'⟩

theorem exists_joined_of_blockJoin? (h : p.Orderly) (hc : c ∈ p.blocks) {found : BlockJoin}
    (hfound : c.plan.blockJoin? = some found) : ∃ l r, p.Joined c found.type l r := by
  obtain ⟨left, right, hjoins⟩ := Plan.exists_joins_of_blockJoin? hfound
  obtain ⟨l, r, -, -, hjoined⟩ := h.exists_joined hc hjoins
  exact ⟨l, r, hjoined⟩

theorem length_readers (h : p.Orderly) (hc : c ∈ p.blocks) {i : BlockId} (hi : i ∈ c.inputs) :
    (p.readers i).length = 1 := by
  have honly : ∀ b ∈ p.blocks, (b.inputs.contains i) = (b == c) := by
    intro b hb
    rw [Bool.eq_iff_iff, List.contains_iff_mem, beq_iff_eq]
    exact ⟨fun hread => h.once b hb c hc i hread hi, fun heq => heq ▸ hi⟩
  have hnodup : p.blocks.Nodup := List.Nodup.of_map _ h.valid.ids_nodup
  rw [readers, Block.readers, List.length_map, List.filter_congr honly,
    ← List.countP_eq_length_filter]
  exact List.count_eq_one_of_mem hnodup hc

/-- Sides of which none is marked are compared by their hints alone. -/
theorem broadcastSide?_eq (h : p.Orderly) (hjoined : p.Joined c type l r)
    (threshold : UInt64) : p.broadcastSide? threshold c =
      if l.output = .broadcast ∨ r.output = .broadcast then none
      else smallSide? threshold type l r := by
  have hwell := h.valid.wellFormed
  have hleft : p.blockOfSeq? l.id.seq = some l := by
    rw [hwell.blockOfSeq?_eq (List.mem_map_of_mem hjoined.left_mem),
      hwell.block?_of_mem hjoined.left_mem]
  have hright : p.blockOfSeq? r.id.seq = some r := by
    rw [hwell.blockOfSeq?_eq (List.mem_map_of_mem hjoined.right_mem),
      hwell.block?_of_mem hjoined.right_mem]
  have hreaders : ∀ side ∈ broadcastSides type l r, (p.readers side.id).length = 1 := by
    intro side hside
    rcases mem_of_broadcastSides hside with rfl | rfl
    · exact h.length_readers hjoined.mem hjoined.left_mem_inputs
    · exact h.length_readers hjoined.mem hjoined.right_mem_inputs
  have hsingle : (broadcastSides type l r).filter (fun side => (p.readers side.id).length == 1) =
      broadcastSides type l r :=
    List.filter_eq_self.mpr fun side hside => by simp [hreaders side hside]
  simp only [broadcastSide?, hjoined.joins.found, Option.bind_eq_bind, Option.bind_some, hleft,
    hright, hsingle, filter_filterMap_hints, smallSide?]

end Orderly

theorem Joined.exists_joins (h : p.Joined c type l r) (horderly : p.Orderly) :
    ∃ left right, c.plan.Joins type left right ∧ left.IsScanOf l.id.seq ∧
      right.IsScanOf r.id.seq := by
  obtain ⟨left, right, hjoins⟩ := Plan.exists_joins_of_blockJoin? h.joins.found
  obtain ⟨l', r', hleft, hright, h'⟩ := horderly.exists_joined h.mem hjoins
  obtain ⟨-, rfl, rfl⟩ := h.eq_of_reads horderly h' h.left_mem_inputs h.left_mem_inputs
  exact ⟨left, right, hjoins, hleft, hright⟩

/-! ## What is kept by the rules -/

/-- Whether a block is the side of a join that is to be handed to everyone. -/
def Wins (p : MasterPlan) (threshold : UInt64) (b : Block) : Prop :=
  ∃ c type l r, p.Joined c type l r ∧
    (b = l ∧ BroadcastsLeft threshold type l r ∨ b = r ∧ BroadcastsRight threshold type l r)

theorem Orderly.wins_of_broadcastSide? (h : p.Orderly) (hc : c ∈ p.blocks)
    (hside : p.broadcastSide? threshold c = some target) : p.Wins threshold target := by
  obtain ⟨found, hfound, -⟩ := Option.bind_eq_some_iff.mp hside
  obtain ⟨l, r, hjoined⟩ := h.exists_joined_of_blockJoin? hc hfound
  rw [h.broadcastSide?_eq hjoined] at hside
  split at hside
  next => cases hside
  next =>
    rcases smallSide?_cases threshold found.type hjoined.joins.lt with
      ⟨hsmall, hleft⟩ | ⟨hsmall, hright⟩ | ⟨hnone, -⟩
    · cases hsmall.symm.trans hside
      exact ⟨c, found.type, _, r, hjoined, Or.inl ⟨rfl, hleft⟩⟩
    · cases hsmall.symm.trans hside
      exact ⟨c, found.type, l, _, hjoined, Or.inr ⟨rfl, hright⟩⟩
    · cases hnone.symm.trans hside

theorem Wins.mem (h : p.Wins threshold b) : b ∈ p.blocks := by
  obtain ⟨c, type, l, r, hjoined, ⟨rfl, -⟩ | ⟨rfl, -⟩⟩ := h
  · exact hjoined.left_mem
  · exact hjoined.right_mem

/-- A block that is read by a join is chosen by this join or by none. -/
theorem Wins.of_reads (h : p.Wins threshold b) (horderly : p.Orderly)
    (hjoined : p.Joined c type l r) (hread : b.id ∈ c.inputs) :
    b = l ∧ BroadcastsLeft threshold type l r ∨ b = r ∧ BroadcastsRight threshold type l r := by
  obtain ⟨c', type', l', r', hjoined', hside⟩ := h
  have hread' : b.id ∈ c'.inputs := by
    rcases hside with ⟨rfl, -⟩ | ⟨rfl, -⟩
    · exact hjoined'.left_mem_inputs
    · exact hjoined'.right_mem_inputs
  obtain ⟨rfl, rfl, rfl⟩ := hjoined.eq_of_reads horderly hjoined' hread hread'
  exact hside

/-- What holds of a plan on the way from the one that was built: marks are where they belong, and
but for these and the fused terminal block all is as it was. -/
structure Reached (built : MasterPlan) (threshold : UInt64) (p : MasterPlan) : Prop where
  orderly : p.Orderly
  wins : ∀ b ∈ p.blocks, b.output = .broadcast → p.Wins threshold b
  kept : ∀ b ∈ p.blocks, b.id ≠ p.terminal ∨ p.terminal = built.terminal →
    ∃ a ∈ built.blocks, b = a ∨ b = { a with output := .broadcast }
  ends : p.terminal = built.terminal ∨
    (∃ t ∈ built.blocks, t.id = built.terminal ∧ t.inputs = [p.terminal]) ∧
      ∀ b ∈ p.blocks, b.plan.isRelay = false

theorem Orderly.reached (h : p.Orderly) (houtput : ∀ b ∈ p.blocks, b.output ≠ .broadcast) :
    Reached p threshold p where
  orderly := h
  wins b hb hmarked := absurd hmarked (houtput b hb)
  kept b hb _ := ⟨b, hb, Or.inl rfl⟩
  ends := Or.inl rfl

/-! ## Marking a block -/

section Marking

/-- A block that is marked if it is the target. -/
def marked (target b : Block) : Block :=
  { b with output := if b.id = target.id then .broadcast else b.output }

theorem marked_of_ne (h : b.id ≠ target.id) : marked target b = b := by
  rw [marked, if_neg h]

theorem mem_markedBlocks (hblocks : ofBlocks p.query (p.markedBlocks target) p.terminal = .ok next)
    (b' : Block) : b' ∈ next.blocks ↔ ∃ b ∈ p.blocks, marked target b = b' := by
  obtain ⟨-, -, -, hperm⟩ := wellFormed_of_ofBlocks hblocks
  rw [hperm.mem_iff, markedBlocks, List.mem_map]
  rfl

theorem Orderly.marking (h : p.Orderly)
    (hblocks : ofBlocks p.query (p.markedBlocks target) p.terminal = .ok next) : next.Orderly := by
  have hmem := mem_markedBlocks hblocks
  obtain ⟨-, -, hterminal, -⟩ := wellFormed_of_ofBlocks hblocks
  refine ⟨valid_of_ofBlocks hblocks, ?_, ?_, ?_⟩
  · intro b' hb' type left right hjoins
    obtain ⟨b, hb, rfl⟩ := (hmem b').mp hb'
    obtain ⟨l, r, hleft, hright, hjoined⟩ := h.joins b hb type left right hjoins
    exact ⟨l, r, hleft, hright, hjoined.inputs, hjoined.found, hjoined.lt⟩
  · intro a' ha' b' hb' i hia hib
    obtain ⟨a, ha, rfl⟩ := (hmem a').mp ha'
    obtain ⟨b, hb, rfl⟩ := (hmem b').mp hb'
    rw [h.once a ha b hb i hia hib]
  · intro b' hb' hrelay
    obtain ⟨b, hb, rfl⟩ := (hmem b').mp hb'
    rw [hterminal]
    exact h.relay b hb hrelay

theorem Wins.marking (h : p.Wins threshold b)
    (hblocks : ofBlocks p.query (p.markedBlocks target) p.terminal = .ok next) :
    next.Wins threshold (marked target b) := by
  have hmem : ∀ {b}, b ∈ p.blocks → marked target b ∈ next.blocks :=
    fun hb => (mem_markedBlocks hblocks _).mpr ⟨_, hb, rfl⟩
  obtain ⟨c, type, l, r, hjoined, hside⟩ := h
  have hjoins := hjoined.joins
  refine ⟨marked target c, type, marked target l, marked target r,
    ⟨hmem hjoined.mem, hmem hjoined.left_mem, hmem hjoined.right_mem,
      hjoins.inputs, hjoins.found, hjoins.lt⟩, ?_⟩
  rcases hside with ⟨rfl, hleft⟩ | ⟨rfl, hright⟩
  · exact Or.inl ⟨rfl, hleft⟩
  · exact Or.inr ⟨rfl, hright⟩

theorem Reached.marking (h : Reached built threshold p) (htarget : p.Wins threshold target)
    (hblocks : ofBlocks p.query (p.markedBlocks target) p.terminal = .ok next) :
    Reached built threshold next := by
  have hmem := mem_markedBlocks hblocks
  obtain ⟨-, -, hterminal, -⟩ := wellFormed_of_ofBlocks hblocks
  refine ⟨h.orderly.marking hblocks, ?_, ?_, ?_⟩
  · intro b' hb' hmarked
    obtain ⟨b, hb, rfl⟩ := (hmem b').mp hb'
    have hwins : p.Wins threshold b := by
      by_cases hid : b.id = target.id
      · rwa [h.orderly.valid.wellFormed.distinct.eq_of_id hb htarget.mem hid]
      · rw [marked_of_ne hid] at hmarked
        exact h.wins b hb hmarked
    exact hwins.marking hblocks
  · rw [hterminal]
    intro b' hb' hother
    obtain ⟨b, hb, rfl⟩ := (hmem b').mp hb'
    obtain ⟨a, ha, heq⟩ := h.kept b hb hother
    refine ⟨a, ha, ?_⟩
    by_cases hid : b.id = target.id
    · right
      rcases heq with rfl | rfl <;> simp [marked, hid]
    · rwa [marked_of_ne hid]
  · rw [hterminal]
    refine h.ends.imp_right (And.imp_right fun hrelay b' hb' => ?_)
    obtain ⟨b, hb, rfl⟩ := (hmem b').mp hb'
    exact hrelay b hb

end Marking

/-! ## Fusing the terminal block -/

section Fusing

variable {parent child : Block}

namespace Fusion

theorem parent_id (h : Fusion p parent child) (horderly : p.Orderly) : parent.id = p.terminal :=
  horderly.relay parent h.parent_mem h.relay

/-- Nobody reads the parent, so that only the child changes. -/
theorem afterFusion_of_ne (h : Fusion p parent child) (horderly : p.Orderly) (hb : b ∈ p.blocks)
    (hne : b.id ≠ child.id) : afterFusion parent child b = b := by
  have hunread : parent.id ∉ b.inputs := h.parent_id horderly ▸ horderly.valid.terminal_unread b hb
  rw [afterFusion, if_neg hne, if_neg (by simpa using hunread)]

/-- The child is joined with a relay, which joins nothing. -/
theorem afterFusion_spec (h : Fusion p parent child) (horderly : p.Orderly) (hb : b ∈ p.blocks) :
    (afterFusion parent child b).inputs = b.inputs ∧
      (afterFusion parent child b).plan.blockJoin? = b.plan.blockJoin? ∧
      ∀ type left right, (afterFusion parent child b).plan.Joins type left right →
        b.plan.Joins type left right := by
  have hwell := horderly.valid.wellFormed
  by_cases hchild : b.id = child.id
  · obtain rfl := hwell.distinct.eq_of_id hb h.child_mem hchild
    rw [afterFusion_child]
    refine ⟨rfl, ?_, fun type left right => ?_⟩
    · exact Plan.inlined_induction (motive := fun q => q.blockJoin? = b.plan.blockJoin?) h.relay
        (h.onlyScan hwell) rfl (fun _ _ hq => hq) fun _ _ _ hq => hq
    · exact Plan.inlined_induction
        (motive := fun q => q.Joins type left right → b.plan.Joins type left right) h.relay
        (h.onlyScan hwell) id (fun _ _ hq => by simpa using hq) fun _ _ _ hq => by simpa using hq
  · rw [h.afterFusion_of_ne horderly hb hchild]
    exact ⟨rfl, rfl, fun _ _ _ => id⟩

theorem fusedTerminal_eq (h : Fusion p parent child) (horderly : p.Orderly) :
    p.fusedTerminal parent child = child.id :=
  fusedTerminal_of_eq (h.parent_id horderly).symm

variable (hblocks : ofBlocks p.query (p.fusedBlocks parent child) (p.fusedTerminal parent child) =
  .ok next)

include hblocks in
theorem mem_next (b' : Block) : b' ∈ next.blocks ↔
    ∃ b ∈ p.blocks, b.id ≠ parent.id ∧ afterFusion parent child b = b' := by
  obtain ⟨-, -, -, hperm⟩ := wellFormed_of_ofBlocks hblocks
  rw [hperm.mem_iff, mem_fusedBlocks]

include hblocks in
theorem orderly (h : Fusion p parent child) (horderly : p.Orderly) : next.Orderly := by
  obtain ⟨-, -, hterminal, -⟩ := wellFormed_of_ofBlocks hblocks
  have hmem := mem_next hblocks
  refine ⟨valid_of_ofBlocks hblocks, ?_, ?_, ?_⟩
  · intro b' hb' type left right hjoins
    obtain ⟨b, hb, -, rfl⟩ := (hmem b').mp hb'
    obtain ⟨hinputs, hfound, hback⟩ := h.afterFusion_spec horderly hb
    obtain ⟨l, r, hleft, hright, hjoined⟩ :=
      horderly.joins b hb type left right (hback type left right hjoins)
    exact ⟨l, r, hleft, hright, hinputs.trans hjoined.inputs, hfound.trans hjoined.found,
      hjoined.lt⟩
  · intro a' ha' b' hb' i hia hib
    obtain ⟨a, ha, -, rfl⟩ := (hmem a').mp ha'
    obtain ⟨b, hb, -, rfl⟩ := (hmem b').mp hb'
    rw [(h.afterFusion_spec horderly ha).1] at hia
    rw [(h.afterFusion_spec horderly hb).1] at hib
    rw [horderly.once a ha b hb i hia hib]
  · intro b' hb' hrelay
    obtain ⟨b, hb, hne, rfl⟩ := (hmem b').mp hb'
    rw [id_afterFusion, hterminal, h.fusedTerminal_eq horderly]
    by_contra hchild
    rw [h.afterFusion_of_ne horderly hb hchild] at hrelay
    exact hne ((horderly.relay b hb hrelay).trans (h.parent_id horderly).symm)

include hblocks in
/-- The sides of a join are not fused, since they are read by it only. -/
theorem joined (h : Fusion p parent child) (horderly : p.Orderly) (hjoined : p.Joined c type l r) :
    next.Joined (afterFusion parent child c) type l r := by
  have hjoins := hjoined.joins
  have hc : c.id ≠ parent.id := by
    intro hid
    obtain rfl := horderly.valid.wellFormed.distinct.eq_of_id hjoined.mem h.parent_mem hid
    simpa using h.inputs.symm.trans hjoins.inputs
  have hside : ∀ b ∈ p.blocks, b.id ∈ c.inputs → b ∈ next.blocks := by
    intro b hb hread
    refine (mem_next hblocks _).mpr ⟨b, hb, ?_, h.afterFusion_of_ne horderly hb ?_⟩
    · intro hid
      apply horderly.valid.terminal_unread c hjoined.mem
      rwa [← h.parent_id horderly, ← hid]
    · intro hid
      exact h.child_notMem hjoined.mem hc (hid ▸ hread)
  obtain ⟨hinputs, hfound, -⟩ := h.afterFusion_spec horderly hjoined.mem
  exact ⟨(mem_next hblocks _).mpr ⟨c, hjoined.mem, hc, rfl⟩,
    hside l hjoined.left_mem hjoined.left_mem_inputs,
    hside r hjoined.right_mem hjoined.right_mem_inputs,
    hinputs.trans hjoins.inputs, hfound.trans hjoins.found, hjoins.lt⟩

end Fusion

theorem Reached.fusing (h : Reached built threshold p) (hfusion : Fusion p parent child)
    (hblocks : ofBlocks p.query (p.fusedBlocks parent child) (p.fusedTerminal parent child) =
      .ok next) : Reached built threshold next := by
  have horderly := h.orderly
  have hwell := horderly.valid.wellFormed
  have hparent := hfusion.parent_id horderly
  have hchild : child.id ≠ p.terminal := (hfusion.terminal_ne_child hwell).symm
  obtain ⟨-, -, hterminal, -⟩ := wellFormed_of_ofBlocks hblocks
  rw [hfusion.fusedTerminal_eq horderly] at hterminal
  -- a relay is left, so nothing has been fused before
  have hfirst : p.terminal = built.terminal := by
    rcases h.ends with heq | ⟨-, hnone⟩
    · exact heq
    · exact absurd hfusion.relay (Bool.eq_false_iff.mp (hnone parent hfusion.parent_mem))
  refine ⟨hfusion.orderly hblocks horderly, ?_, ?_, ?_⟩
  · intro b' hb' hmarked
    obtain ⟨b, hb, -, rfl⟩ := (Fusion.mem_next hblocks _).mp hb'
    by_cases hbchild : b.id = child.id
    · obtain rfl := hwell.distinct.eq_of_id hb hfusion.child_mem hbchild
      have houtput := (horderly.valid.output parent hfusion.parent_mem).mpr hparent
      rw [afterFusion_child] at hmarked
      cases houtput.symm.trans hmarked
    · rw [hfusion.afterFusion_of_ne horderly hb hbchild] at hmarked ⊢
      obtain ⟨c, type, l, r, hjoined, hside⟩ := h.wins b hb hmarked
      exact ⟨_, type, l, r, hfusion.joined hblocks horderly hjoined, hside⟩
  · intro b' hb' hother
    obtain ⟨b, hb, -, rfl⟩ := (Fusion.mem_next hblocks _).mp hb'
    rw [id_afterFusion, hterminal, ← hfirst] at hother
    have hbchild : b.id ≠ child.id := hother.resolve_right hchild
    rw [hfusion.afterFusion_of_ne horderly hb hbchild]
    exact h.kept b hb (Or.inr hfirst)
  · rw [hterminal]
    refine Or.inr ⟨?_, ?_⟩
    · obtain ⟨a, ha, heq⟩ := h.kept parent hfusion.parent_mem (Or.inr hfirst)
      have hinputs := hfusion.inputs
      refine ⟨a, ha, ?_⟩
      rcases heq with rfl | rfl <;> exact ⟨hparent.trans hfirst, hinputs⟩
    · intro b' hb'
      obtain ⟨b, hb, hne, rfl⟩ := (Fusion.mem_next hblocks _).mp hb'
      have hother : ∀ a ∈ p.blocks, a.id ≠ p.terminal → a.plan.isRelay = false := fun a ha hne =>
        Bool.eq_false_iff.mpr fun hrelay => hne (horderly.relay a ha hrelay)
      by_cases hbchild : b.id = child.id
      · obtain rfl := hwell.distinct.eq_of_id hb hfusion.child_mem hbchild
        rw [afterFusion_child, fused, Plan.isRelay_inlined hfusion.relay (hfusion.onlyScan hwell)]
        exact hother b hb hchild
      · rw [hfusion.afterFusion_of_ne horderly hb hbchild]
        exact hother b hb (hparent ▸ hne)

end Fusing

/-! ## Improved plans -/

section Improve

variable {rules : List PlanRule} {uses : List RuleUse} {cap : ℕ}

theorem mem_of_first? {rule : PlanRule} (h : PlanRule.first? rules p = .ok (some (rule, next))) :
    rule ∈ rules := by
  induction rules with
  | nil => cases h
  | cons head rules ih =>
    obtain ⟨found, -, h⟩ := Except.bind_eq_ok.mp h
    cases found with
    | none => exact List.mem_cons_of_mem _ (ih h)
    | some =>
      cases h
      exact List.mem_cons_self

theorem result?_of_first?_eq_none (h : PlanRule.first? rules p = .ok none) {rule : PlanRule}
    (hrule : rule ∈ rules) : rule.result? p = .ok none := by
  induction rules with
  | nil => cases hrule
  | cons head rules ih =>
    obtain ⟨found, hfound, h⟩ := Except.bind_eq_ok.mp h
    cases found with
    | some => cases h
    | none =>
      rcases List.mem_cons.mp hrule with rfl | hrule
      · exact hfound
      · exact ih h hrule

/-- A rule that is used leads on. -/
theorem Reached.of_first? (h : Reached built threshold p) {rule : PlanRule}
    (hfirst : PlanRule.first? (PlanRule.standard threshold) p = .ok (some (rule, next))) :
    Reached built threshold next := by
  have hresult := exists_rule_of_first? hfirst
  have hrule := mem_of_first? hfirst
  simp only [PlanRule.standard, List.mem_cons, List.not_mem_nil, or_false] at hrule
  rcases hrule with rfl | rfl
  · obtain ⟨parent, child, hfusion, hblocks⟩ := fusion_of_fuse hresult
    exact h.fusing hfusion hblocks
  · rw [PlanRule.result?, markBroadcast] at hresult
    split at hresult
    next => cases hresult
    next target hfind =>
      obtain ⟨next', hblocks, hsome⟩ := Except.map_eq_ok.mp hresult
      cases hsome
      rw [← markedBlocks_eq] at hblocks
      obtain ⟨c, hc, hside⟩ := List.exists_of_findSome?_eq_some hfind
      exact h.marking (h.orderly.wins_of_broadcastSide? hc hside) hblocks

theorem Reached.of_chain (h : Reached built threshold p)
    (hchain : Chain (PlanRule.standard threshold) p uses last) : Reached built threshold last := by
  induction hchain with
  | refl => exact h
  | use first rest ih => exact ih (h.of_first? first)

theorem chain_of_improve (hvalid : Valid p.query p.blocks p.terminal)
    (h : p.improve rules cap = (uses, .ok last)) :
    Chain rules p uses last ∧ PlanRule.first? rules last = .ok none := by
  obtain ⟨all, stable, hchain, hstable⟩ := exists_chain rules hvalid
  rw [improve] at h
  rcases Nat.lt_or_ge cap all.length with hlt | hle
  · rw [hchain.improveFrom_of_lt hlt] at h
    cases h
  · rw [hchain.improveFrom_of_le hstable hle] at h
    cases h
    exact ⟨hchain, hstable⟩

theorem broadcastSide?_eq_none (hstable : p.markBroadcast threshold = .ok none)
    (hc : c ∈ p.blocks) : p.broadcastSide? threshold c = none := by
  rw [markBroadcast] at hstable
  split at hstable
  next hnone => exact List.findSome?_eq_none_iff.mp hnone c hc
  next =>
    obtain ⟨_, -, hsome⟩ := Except.map_eq_ok.mp hstable
    cases hsome

/-- Where nothing is left to be marked, just those sides are that are to be. -/
theorem Reached.broadcast_iff (h : Reached built threshold p)
    (hstable : p.markBroadcast threshold = .ok none) (hjoined : p.Joined c type l r) :
    (l.output = .broadcast ↔ BroadcastsLeft threshold type l r) ∧
      (r.output = .broadcast ↔ BroadcastsRight threshold type l r) := by
  have hleft : l.output = .broadcast → BroadcastsLeft threshold type l r := fun hmarked =>
    ((h.wins l hjoined.left_mem hmarked).of_reads h.orderly hjoined hjoined.left_mem_inputs).elim
      And.right fun hside => absurd hside.1 hjoined.left_ne_right
  have hright : r.output = .broadcast → BroadcastsRight threshold type l r := fun hmarked =>
    ((h.wins r hjoined.right_mem hmarked).of_reads h.orderly hjoined hjoined.right_mem_inputs).elim
      (fun hside => absurd hside.1.symm hjoined.left_ne_right) And.right
  have hone : BroadcastsLeft threshold type l r ∨ BroadcastsRight threshold type l r →
      l.output = .broadcast ∨ r.output = .broadcast := by
    intro hside
    by_contra hunmarked
    have hnone := broadcastSide?_eq_none hstable hjoined.mem
    rw [h.orderly.broadcastSide?_eq hjoined, if_neg hunmarked] at hnone
    rcases smallSide?_cases threshold type hjoined.joins.lt with
      ⟨hsmall, -⟩ | ⟨hsmall, -⟩ | ⟨-, hnotLeft, hnotRight⟩
    · cases hsmall.symm.trans hnone
    · cases hsmall.symm.trans hnone
    · exact hside.elim hnotLeft hnotRight
  refine ⟨⟨hleft, fun hside => ?_⟩, hright, fun hside => ?_⟩
  · rcases hone (Or.inl hside) with hmarked | hmarked
    · exact hmarked
    · exact absurd ⟨hside, hright hmarked⟩ not_broadcastsLeft_and_right
  · rcases hone (Or.inr hside) with hmarked | hmarked
    · exact absurd ⟨hleft hmarked, hside⟩ not_broadcastsLeft_and_right
    · exact hmarked

/-- In an improved plan the rows of a block go to everyone just if it is the side of a join that
calls for it: the right one of an outer join, or the smaller one of an inner or cross join, with a
row hint that is small enough.  Apart from the fused terminal block, all other blocks are as they
were built. -/
theorem improve_broadcast_iff {catalog : Option Catalog} {id : QueryId} {tree : Plan}
    (hbuilt : ofPlan catalog id tree = .ok built)
    (h : built.improve (PlanRule.standard threshold) cap = (uses, .ok last)) :
    (∀ b ∈ last.blocks, b.output = .broadcast → ∃ c ∈ last.blocks, b.id ∈ c.inputs ∧
      ∃ type left right, c.plan.Joins type left right ∧
        (left.IsScanOf b.id.seq ∨ right.IsScanOf b.id.seq)) ∧
    (∀ c ∈ last.blocks, ∀ type left right, c.plan.Joins type left right →
      ∃ l ∈ last.blocks, ∃ r ∈ last.blocks, c.inputs = [l.id, r.id] ∧
        left.IsScanOf l.id.seq ∧ right.IsScanOf r.id.seq ∧
        (l.output = .broadcast ↔ BroadcastsLeft threshold type l r) ∧
        (r.output = .broadcast ↔ BroadcastsRight threshold type l r) ∧
        ¬(l.output = .broadcast ∧ r.output = .broadcast)) ∧
    (∀ b ∈ last.blocks, b.id = last.terminal ∧ b.output = .none ∨
      b.id ≠ last.terminal ∧ ∃ a ∈ built.blocks, a.output ≠ .broadcast ∧
        (b = a ∨ b = { a with output := .broadcast })) ∧
    (last.terminal = built.terminal ∨
      ∃ t ∈ built.blocks, t.id = built.terminal ∧ t.inputs = [last.terminal]) := by
  obtain ⟨child, hchild⟩ := exists_ofPlan_none hbuilt
  obtain ⟨horderly, houtput⟩ := orderly_of_ofPlan hchild
  obtain ⟨hchain, hstable⟩ := chain_of_improve horderly.valid h
  have hlast := (horderly.reached houtput).of_chain hchain
  have hmarks : (PlanRule.broadcasting threshold).result? last = .ok none :=
    result?_of_first?_eq_none hstable (by simp [PlanRule.standard])
  refine ⟨?_, ?_, ?_, hlast.ends.imp_right And.left⟩
  · intro b hb hmarked
    obtain ⟨c, type, l, r, hjoined, hside⟩ := hlast.wins b hb hmarked
    obtain ⟨left, right, hjoins, hleft, hright⟩ := hjoined.exists_joins hlast.orderly
    rcases hside with ⟨rfl, -⟩ | ⟨rfl, -⟩
    · exact ⟨c, hjoined.mem, hjoined.left_mem_inputs, type, left, right, hjoins, Or.inl hleft⟩
    · exact ⟨c, hjoined.mem, hjoined.right_mem_inputs, type, left, right, hjoins, Or.inr hright⟩
  · intro c hc type left right hjoins
    obtain ⟨l, r, hleft, hright, hjoined⟩ := hlast.orderly.exists_joined hc hjoins
    obtain ⟨hl, hr⟩ := hlast.broadcast_iff hmarks hjoined
    refine ⟨l, hjoined.left_mem, r, hjoined.right_mem, hjoined.joins.inputs, hleft, hright, hl, hr,
      ?_⟩
    rw [hl, hr]
    exact not_broadcastsLeft_and_right
  · intro b hb
    by_cases hid : b.id = last.terminal
    · exact Or.inl ⟨hid, (hlast.orderly.valid.output b hb).mpr hid⟩
    · obtain ⟨a, ha, heq⟩ := hlast.kept b hb (Or.inl hid)
      exact Or.inr ⟨hid, a, ha, houtput a ha, heq⟩

/-- The left table of the sorted product is small, and nothing is known of the right one. -/
theorem improve_broadcast_product :
    ∃ built uses last, ofPlan none (QueryId.ofNat 1) (.root SortedProduct.query) = .ok built ∧
      built.improve (PlanRule.standard 10) 6 = (uses, .ok last) ∧
      ∃ c ∈ last.blocks, ∃ l ∈ last.blocks, ∃ r ∈ last.blocks, c.inputs = [l.id, r.id] ∧
        l.output = .broadcast ∧ r.output ≠ .broadcast := by
  have hrun : ((ofPlan none (QueryId.ofNat 1) (.root SortedProduct.query)).toOption.bind
      fun built => (built.improve (PlanRule.standard 10) 6).2.toOption).map (fun last => decide
        ((last.blocks.map fun b => (b.id.seq, b.rowHint)) =
            [(1, some 7), (2, none), (3, none), (4, none)] ∧
          (last.blocks.map fun b => (b.inputs.map BlockId.seq, b.plan.blockJoin?)) =
            [([], none), ([], none), ([1, 2], some ⟨.cross, 1, 2⟩), ([3], none)])) =
      some true := by decide +kernel
  obtain ⟨last, hlast, hblocks⟩ := Option.map_eq_some_iff.mp hrun
  obtain ⟨hhints, hinputs⟩ := of_decide_eq_true hblocks
  obtain ⟨built, hbuilt, himproved⟩ := Option.bind_eq_some_iff.mp hlast
  have hbuilt := Except.toOption_eq_some.mp hbuilt
  have himproved := Except.toOption_eq_some.mp himproved
  rcases hresult : built.improve (PlanRule.standard 10) 6 with ⟨uses, result⟩
  rw [hresult] at himproved
  cases himproved
  obtain ⟨-, hjoins, -, -⟩ := improve_broadcast_iff hbuilt hresult
  obtain ⟨c, hc, hpair⟩ : ∃ c ∈ last.blocks,
      (c.inputs.map BlockId.seq, c.plan.blockJoin?) = ([1, 2], some ⟨.cross, 1, 2⟩) :=
    List.mem_map.mp (by simp [hinputs])
  obtain ⟨hseqs, hfound⟩ := Prod.mk.inj hpair
  obtain ⟨left, right, hjoin⟩ := Plan.exists_joins_of_blockJoin? hfound
  obtain ⟨l, hl, r, hr, hread, -, -, hleft, hright, -⟩ := hjoins c hc _ left right hjoin
  have hhint : ∀ b ∈ last.blocks, (b.id.seq = 1 → b.rowHint = some 7) ∧
      (b.id.seq = 2 → b.rowHint = none) := by
    intro b hb
    have hmem : (b.id.seq, b.rowHint) ∈ last.blocks.map fun b => (b.id.seq, b.rowHint) :=
      List.mem_map_of_mem hb
    rw [hhints] at hmem
    constructor <;> intro hseq <;> simpa [hseq] using hmem
  rw [hread] at hseqs
  simp only [List.map_cons, List.map_nil, List.cons.injEq, and_true] at hseqs
  have hlhint := (hhint l hl).1 hseqs.1
  have hrhint := (hhint r hr).2 hseqs.2
  refine ⟨built, uses, last, hbuilt, hresult, c, hc, l, hl, r, hr, hread, ?_, ?_⟩
  · rw [hleft]
    simp [BroadcastsLeft, Block.smallHint?, hlhint, hrhint]
  · rw [Ne, hright]
    simp [BroadcastsRight, Block.smallHint?, hrhint]

end Improve

end MasterPlan

end BlockQuery
