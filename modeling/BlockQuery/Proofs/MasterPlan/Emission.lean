import BlockQuery.Plan.Builder
import BlockQuery.Proofs.MasterPlan.Accepted

/-!
# What the cursor of a plan emits

An accepted plan has no cycle, so its cursor never runs dry before the last
block: a block is ready as long as one is left.  The terminal block is the only
one that nobody reads, hence all others come before it.
-/

namespace BlockQuery

namespace BlockCursor

variable {blocks : List Block} {done : List BlockId} {c d : BlockCursor} {id : BlockId}

/-- A cursor that emits its next block, when some of the readers have been settled. -/
def settling (c : BlockCursor) (readers : List BlockId) : BlockCursor :=
  readers.foldl settle { c with frontier := c.frontier.tail, emitted := c.emitted + 1 }

theorem next?_eq_some_iff : c.next? = some (id, d) ↔
    c.frontier.head? = some id ∧ d = c.settling (c.waiting id) := by
  unfold next? settling
  cases c.frontier with
  | nil => simp
  | cons q rest =>
    simp only [List.head?_cons, List.tail_cons, Option.some.injEq, Prod.mk.injEq]
    constructor
    · rintro ⟨rfl, hd⟩
      exact ⟨rfl, hd.symm⟩
    · rintro ⟨rfl, hd⟩
      exact ⟨rfl, hd.symm⟩

theorem next?_eq_none_iff : c.next? = none ↔ c.frontier = [] := by
  unfold next?
  cases c.frontier <;> simp

theorem hasNext_iff : c.hasNext = true ↔ c.frontier ≠ [] := by
  cases hfrontier : c.frontier <;> simp [hasNext, hfrontier]

theorem length_take_le (n : ℕ) (c : BlockCursor) : (c.take n).1.length ≤ n := by
  induction n generalizing c with
  | zero => simp [take]
  | succ n ih =>
    rw [take]
    cases c.next? with
    | none => simp
    | some found => simpa using ih found.2

/-- More calls only emit more blocks. -/
theorem take_take (n k : ℕ) (c : BlockCursor) : (c.take (n + k)).1.take n = (c.take n).1 := by
  induction n generalizing c with
  | zero => simp [take]
  | succ n ih =>
    rw [Nat.succ_add, take, take]
    cases c.next? with
    | none => simp
    | some found => simp [ih found.2]

namespace Reached

theorem lookup_pending (hdistinct : Distinct blocks) (h : Reached blocks done c) {b : Block}
    (hb : b ∈ blocks) : c.pending.lookup b.id = some (missing done b) := by
  rw [h.pending]
  exact lookup_map_id hdistinct.ids (missing done) hb

theorem length_le (h : Reached blocks done c) :
    done.length + c.frontier.length ≤ blocks.length := by
  have hsubperm := h.nodup.subperm h.subset
  simpa using hsubperm.length_le

/-- As long as some block is left, one is ready. -/
theorem frontier_eq_nil_iff (h : Reached blocks done c)
    (hinputs : ∀ b ∈ blocks, ∀ i ∈ b.inputs, i ∈ blocks.map Block.id)
    (hids : (blocks.map Block.id).Nodup) (hacyclic : ¬Block.Cyclic blocks) :
    c.frontier = [] ↔ blocks.length ≤ done.length := by
  constructor
  · intro hempty
    have hall : ∀ id ∈ blocks.map Block.id, id ∈ done := by
      intro id hid
      by_contra hnot
      obtain ⟨b, hb, rfl⟩ := List.mem_map.mp hid
      exact hacyclic (h.cyclic hinputs hempty ⟨b, hb, hnot⟩)
    simpa using (hids.subperm hall).length_le
  · intro hlength
    have hle := h.length_le
    apply List.eq_nil_of_length_eq_zero
    omega

/-- A reader waits for the block that is emitted, so its count is not zero yet when its turn
comes. -/
theorem exists_lookup_settling (hdistinct : Distinct blocks) (h : Reached blocks done c)
    (hnext : c.next? = some (id, d)) {before after : List BlockId} {reader : BlockId}
    (hreaders : c.waiting id = before ++ reader :: after) :
    ∃ k, (c.settling before).pending.lookup reader = some (k + 1) := by
  have hwaiting : c.waiting id = (blocks.filter (·.inputs.contains id)).map (·.id) := by
    rw [waiting_eq (h.blocks ▸ hdistinct), h.blocks]
  have hnodup : (before ++ reader :: after).Nodup := by
    rw [← hreaders, hwaiting]
    exact (List.filter_sublist.map _).nodup hdistinct.ids
  have hmem : reader ∈ (blocks.filter (·.inputs.contains id)).map (·.id) := by
    rw [← hwaiting, hreaders]
    simp
  obtain ⟨b, hb, rfl⟩ := List.mem_map.mp hmem
  obtain ⟨hb, hreads⟩ := List.mem_filter.mp hb
  have hfresh : b.id ∉ before := fun hin =>
    List.disjoint_of_nodup_append hnodup hin List.mem_cons_self
  obtain ⟨hhead, -⟩ := next?_eq_some_iff.mp hnext
  have hid : id ∉ done := by
    intro hin
    exact List.disjoint_of_nodup_append h.nodup hin (List.mem_of_head? hhead)
  have hmissing : missing done b ≠ 0 := by
    intro hzero
    apply hid
    exact missing_eq_zero_iff.mp hzero id (by simpa using hreads)
  refine ⟨missing done b - 1, ?_⟩
  rw [settling, foldl_settle hnodup.of_append_left]
  dsimp only
  rw [lookup_map_count c.pending (fun id n => if id ∈ before then n - 1 else n),
    h.lookup_pending hdistinct hb]
  simp only [Option.map_some, if_neg hfresh, Option.some.injEq]
  omega

end Reached

end BlockCursor

namespace MasterPlan

open BlockCursor (Reached missing)

section Accepted

variable {query : QueryId} {blocks : List Block} {terminal : BlockId} {p : MasterPlan}

theorem inputsFirst_append {done : List BlockId} {xs ys : List Block} :
    InputsFirst done (xs ++ ys) ↔
      InputsFirst done xs ∧ InputsFirst (done ++ xs.map Block.id) ys := by
  induction xs generalizing done with
  | nil => simp [InputsFirst]
  | cons b xs ih => simp [InputsFirst, ih, and_assoc]

namespace WellFormed

theorem not_cyclic (h : p.WellFormed) : ¬Block.Cyclic p.blocks :=
  (BlockCursor.length_drain_eq_iff h.distinct h.inputs).mp h.acyclic

theorem map_id_order (h : p.WellFormed) : p.order.map Block.id = p.cursor.drain.1 := by
  obtain ⟨-, hsubset, hordered⟩ := BlockCursor.drain_spec h.distinct
  exact (h.inputsFirst_filterMap hsubset hordered).2

theorem nodup_order (h : p.WellFormed) : (p.order.map Block.id).Nodup :=
  (h.order_spec.1.map Block.id).nodup_iff.mpr h.distinct.ids

theorem inputs_before (h : p.WellFormed) {before after : List Block} {b : Block}
    (horder : p.order = before ++ b :: after) : ∀ i ∈ b.inputs, i ∈ before.map Block.id := by
  have hordered := h.order_spec.2
  rw [horder, inputsFirst_append] at hordered
  exact hordered.2.1

/-- What comes last is read by nobody. -/
theorem exists_order_eq (h : p.WellFormed) :
    ∃ before t, p.order = before ++ [t] ∧ t.id = p.terminal := by
  obtain ⟨hperm, -⟩ := h.order_spec
  have hne : p.order ≠ [] := by
    intro hnil
    obtain ⟨b, hb, -⟩ := List.mem_map.mp h.terminal
    simpa [hnil] using hperm.mem_iff.mpr hb
  obtain ⟨before, t, horder⟩ := (List.eq_nil_or_concat' p.order).resolve_left hne
  refine ⟨before, t, horder, ?_⟩
  by_contra hterminal
  have ht : t ∈ p.blocks := hperm.mem_iff.mp (by simp [horder])
  obtain ⟨c, hc, hread⟩ := h.isRead t ht hterminal
  have hnodup := h.nodup_order
  rw [horder] at hnodup
  have hmem : c ∈ before ++ [t] := horder ▸ hperm.mem_iff.mpr hc
  rcases List.mem_append.mp hmem with hc' | hc'
  · obtain ⟨u, v, rfl⟩ := List.append_of_mem hc'
    have hsplit : p.order = u ++ c :: (v ++ [t]) := by simp [horder]
    have hearly := h.inputs_before hsplit _ hread
    simp only [List.map_append, List.append_assoc] at hnodup
    exact List.disjoint_of_nodup_append hnodup hearly (by simp)
  · obtain rfl := List.mem_singleton.mp hc'
    exact h.notSelf c hc hread

theorem reached_take (h : p.WellFormed) (n : ℕ) :
    Reached p.blocks (p.cursor.take n).1 (p.cursor.take n).2 := by
  have hreached := ((BlockCursor.reached_start h.distinct).take h.distinct n).1
  rwa [List.nil_append] at hreached

theorem frontier_take_eq_nil_iff (h : p.WellFormed) (n : ℕ) :
    (p.cursor.take n).2.frontier = [] ↔ p.blocks.length ≤ (p.cursor.take n).1.length :=
  (h.reached_take n).frontier_eq_nil_iff h.inputs h.distinct.ids h.not_cyclic

/-- Every call emits a block until there is none left. -/
theorem length_take (h : p.WellFormed) (n : ℕ) :
    (p.cursor.take n).1.length = min n p.blocks.length := by
  have hle := (h.reached_take n).length_le
  have hcalls := BlockCursor.length_take_le n p.cursor
  rcases BlockCursor.length_take_or n p.cursor with hlength | hempty
  · omega
  · have hall := (h.frontier_take_eq_nil_iff n).mp hempty
    omega

theorem take_eq (h : p.WellFormed) (n : ℕ) :
    (p.cursor.take n).1 = (p.order.map Block.id).take n := by
  rw [h.map_id_order]
  change _ = (p.cursor.take p.blocks.length).1.take n
  rcases le_total n p.blocks.length with hle | hle
  · obtain ⟨k, hk⟩ := Nat.exists_eq_add_of_le hle
    rw [hk, BlockCursor.take_take]
  · obtain ⟨k, rfl⟩ := Nat.exists_eq_add_of_le hle
    rw [← BlockCursor.take_take p.blocks.length k, List.take_take, min_eq_right hle]
    apply (List.take_of_length_le _).symm
    simp [h.length_take]

end WellFormed

/-- The cursor of an accepted plan emits all blocks, each once, behind its inputs, and the terminal
one last.  After any number of calls its counts are those of the inputs to come, no count has to go
below zero, and it has a next block just if some are left. -/
theorem emission_of_ofBlocks (h : ofBlocks query blocks terminal = .ok p) :
    (p.order.Perm blocks ∧ p.order.Nodup ∧ p.order.map Block.id = p.cursor.drain.1) ∧
    (∀ before b after, p.order = before ++ b :: after →
      ∀ i ∈ b.inputs, i ∈ before.map Block.id) ∧
    (∃ before t, p.order = before ++ [t] ∧ t.id = terminal) ∧
    ∀ n done c, p.cursor.take n = (done, c) →
      done = (p.order.map Block.id).take n ∧
      c.emitted = done.length ∧
      (c.hasNext = true ↔ 0 < c.remaining) ∧
      (∀ b ∈ blocks, c.pending.lookup b.id = some (missing done b)) ∧
      (∀ id d, c.next? = some (id, d) → d = c.settling (c.waiting id) ∧
        ∀ before reader after, c.waiting id = before ++ reader :: after →
          ∃ k, (c.settling before).pending.lookup reader = some (k + 1)) ∧
      (c.next? = none ↔ blocks.length ≤ n) := by
  obtain ⟨hwell, -, rfl, hperm⟩ := wellFormed_of_ofBlocks h
  refine ⟨⟨hwell.order_spec.1.trans hperm, hwell.nodup_order.of_map _, hwell.map_id_order⟩,
    fun before b after horder => hwell.inputs_before horder, hwell.exists_order_eq, ?_⟩
  intro n done c htake
  have hreached := hwell.reached_take n
  have hfrontier := hwell.frontier_take_eq_nil_iff n
  have hlength := hwell.length_take n
  have hdone := hwell.take_eq n
  rw [htake] at hreached hfrontier hlength hdone
  dsimp only at hreached hfrontier hlength hdone
  refine ⟨hdone, hreached.emitted, ?_, ?_, ?_, ?_⟩
  · rw [BlockCursor.hasNext_iff, ne_eq, hfrontier, BlockCursor.remaining, hreached.blocks,
      hreached.emitted]
    omega
  · intro b hb
    exact hreached.lookup_pending hwell.distinct (hperm.mem_iff.mpr hb)
  · intro id d hnext
    refine ⟨(BlockCursor.next?_eq_some_iff.mp hnext).2, ?_⟩
    intro before reader after hreaders
    exact hreached.exists_lookup_settling hwell.distinct hnext hreaders
  · rw [BlockCursor.next?_eq_none_iff, hfrontier, hlength, ← hperm.length_eq]
    omega

end Accepted

/-! A table whose rows are read by two blocks, and a join of these. -/

namespace Diamond

def query : QueryId := QueryId.ofNat 1

def rows : Schema := [⟨"t.a", .int4⟩]

def id (seq : UInt32) : BlockId := ⟨query, seq⟩

def blocks : List Block :=
  [⟨id 1, [], .hash [], none, .scan ⟨.table "t", rows, none, none⟩⟩,
    ⟨id 2, [id 1], .hash [], none, .scanBlock 1 rows none⟩,
    ⟨id 3, [id 1], .hash [], none, .scanBlock 1 rows none⟩,
    ⟨id 4, [id 2, id 3], .none, none,
      .joining (.scanBlock 2 rows none) (.scanBlock 3 rows none) .cross none⟩]

theorem exists_ofBlocks : ∃ p, ofBlocks query blocks (id 4) = .ok p := by
  have hrun : (ofBlocks query blocks (id 4)).toOption.isSome = true := by decide +kernel
  obtain ⟨p, hp⟩ := Option.isSome_iff_exists.mp hrun
  exact ⟨p, Except.toOption_eq_some.mp hp⟩

end Diamond

theorem emission_of_diamond : ∃ p, ofBlocks Diamond.query Diamond.blocks (Diamond.id 4) = .ok p ∧
    (∃ before t, p.order = before ++ [t] ∧ t.id = Diamond.id 4) ∧
    (p.cursor.take 3).2.next? ≠ none ∧ (p.cursor.take 4).2.next? = none := by
  obtain ⟨p, hp⟩ := Diamond.exists_ofBlocks
  obtain ⟨-, -, hlast, hcalls⟩ := emission_of_ofBlocks hp
  have hends : ∀ n, (p.cursor.take n).2.next? = none ↔ Diamond.blocks.length ≤ n := by
    intro n
    obtain ⟨-, -, -, -, -, hnone⟩ := hcalls n _ _ rfl
    exact hnone
  refine ⟨p, hp, hlast, ?_, ?_⟩
  · rw [ne_eq, hends]
    decide
  · rw [hends]
    decide

end MasterPlan

end BlockQuery
