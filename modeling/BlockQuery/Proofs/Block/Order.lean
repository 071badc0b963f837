import Mathlib.Tactic
import BlockQuery.Block.Cursor

/-!
# The order of blocks

What a cursor knows after it has emitted some blocks is determined by these:
its counts are the numbers of inputs that were not emitted, and a block waits
in the queue if it has none of those and was not emitted itself.
-/

namespace BlockQuery.BlockCursor

/-- Whether blocks can be told apart and list each input once. -/
structure Distinct (blocks : List Block) : Prop where
  ids : (blocks.map (·.id)).Nodup
  inputs : ∀ b ∈ blocks, b.inputs.Nodup

/-- The number of inputs of a block that have not been emitted. -/
def missing (emitted : List BlockId) (b : Block) : ℕ :=
  (b.inputs.filter fun i => !emitted.contains i).length

theorem missing_eq_zero_iff {emitted : List BlockId} {b : Block} :
    missing emitted b = 0 ↔ ∀ i ∈ b.inputs, i ∈ emitted := by
  simp [missing, List.filter_eq_nil_iff]

theorem missing_nil (b : Block) : missing [] b = b.inputs.length := by
  simp [missing]

/-- One more emitted block is one less that is missing from those that read it. -/
theorem missing_append {emitted : List BlockId} {id : BlockId} {b : Block}
    (hinputs : b.inputs.Nodup) (hid : id ∉ emitted) :
    missing (emitted ++ [id]) b =
      if id ∈ b.inputs then missing emitted b - 1 else missing emitted b := by
  have herase : (b.inputs.filter fun i => !(emitted ++ [id]).contains i) =
      (b.inputs.filter fun i => !emitted.contains i).erase id := by
    rw [(hinputs.filter _).erase_eq_filter, List.filter_filter]
    apply List.filter_congr
    intro i _
    by_cases hi : i = id <;> simp [hi]
  have hmem : id ∈ (b.inputs.filter fun i => !emitted.contains i) ↔ id ∈ b.inputs := by
    simp [hid]
  rw [missing, herase, List.length_erase]
  simp only [hmem]
  rfl

/-! ## Settling readers -/

/-- Counts changed by their keys. -/
theorem lookup_map_count (pending : List (BlockId × ℕ)) (f : BlockId → ℕ → ℕ) (id : BlockId) :
    (pending.map fun p => (p.1, f p.1 p.2)).lookup id = (pending.lookup id).map (f id) := by
  induction pending with
  | nil => rfl
  | cons p pending ih =>
    obtain ⟨a, n⟩ := p
    rw [List.map_cons, List.lookup_cons, List.lookup_cons]
    rcases eq_or_ne id a with rfl | hne
    · simp
    · have hbeq : (id == a) = false := by simpa using hne
      simp [hbeq, ih]

theorem settle_eq (c : BlockCursor) (reader : BlockId) :
    c.settle reader =
      { c with
        pending := c.pending.map fun p => (p.1, if p.1 = reader then p.2 - 1 else p.2)
        frontier := c.frontier ++
          if (c.pending.lookup reader).map (· - 1) = some 0 then [reader] else [] } := by
  have hpending : (c.pending.map fun p => if p.1 = reader then (p.1, p.2 - 1) else (p.1, p.2)) =
      c.pending.map fun p => (p.1, if p.1 = reader then p.2 - 1 else p.2) := by
    apply List.map_congr_left
    intro p _
    split <;> rfl
  have hlookup := lookup_map_count c.pending (fun id n => if id = reader then n - 1 else n) reader
  simp only [if_true] at hlookup
  rw [settle]
  simp only [hpending, hlookup]
  split <;> simp

/-- Settling some readers takes one off the count of each. -/
theorem foldl_settle {readers : List BlockId} (h : readers.Nodup) (c : BlockCursor) :
    readers.foldl settle c =
      { c with
        pending := c.pending.map fun p => (p.1, if p.1 ∈ readers then p.2 - 1 else p.2)
        frontier := c.frontier ++ readers.filter fun r =>
          decide ((c.pending.lookup r).map (· - 1) = some 0) } := by
  induction readers generalizing c with
  | nil => simp
  | cons r rs ih =>
    obtain ⟨hr, hrs⟩ := List.nodup_cons.mp h
    rw [List.foldl_cons, ih hrs, settle_eq]
    dsimp only
    have hfilter : (rs.filter fun q => decide (((c.pending.map fun p =>
        (p.1, if p.1 = r then p.2 - 1 else p.2)).lookup q).map (· - 1) = some 0)) =
          rs.filter fun q => decide ((c.pending.lookup q).map (· - 1) = some 0) := by
      apply List.filter_congr
      intro q hq
      have hne : q ≠ r := fun heq => hr (heq ▸ hq)
      rw [lookup_map_count c.pending (fun id n => if id = r then n - 1 else n) q]
      simp [hne]
    have hmap : (c.pending.map fun p => (p.1, if p.1 = r then p.2 - 1 else p.2)).map
        (fun p => (p.1, if p.1 ∈ rs then p.2 - 1 else p.2)) =
          c.pending.map fun p => (p.1, if p.1 ∈ r :: rs then p.2 - 1 else p.2) := by
      rw [List.map_map]
      apply List.map_congr_left
      rintro ⟨id, n⟩ _
      rcases eq_or_ne id r with rfl | hne
      · simp [hr]
      · simp [hne]
    rw [hfilter, hmap, List.append_assoc, List.filter_cons]
    by_cases hzero : (c.pending.lookup r).map (· - 1) = some 0 <;> simp [hzero]

/-! ## What has been emitted -/

/-- What a cursor over blocks knows after it has emitted some of them. -/
structure Reached (bs : List Block) (done : List BlockId) (c : BlockCursor) : Prop where
  blocks : c.blocks = bs
  pending : c.pending = bs.map fun b => (b.id, missing done b)
  emitted : c.emitted = done.length
  nodup : (done ++ c.frontier).Nodup
  mem_iff : ∀ b ∈ bs, b.id ∈ done ++ c.frontier ↔ missing done b = 0
  subset : ∀ id ∈ done ++ c.frontier, id ∈ bs.map Block.id

variable {blocks : List Block}

theorem Distinct.eq_of_id (h : Distinct blocks) {a b : Block} (ha : a ∈ blocks) (hb : b ∈ blocks)
    (hid : a.id = b.id) : a = b := List.inj_on_of_nodup_map h.ids ha hb hid

theorem Distinct.mem_ids_filter (h : Distinct blocks) (p : Block → Bool) {b : Block}
    (hb : b ∈ blocks) : b.id ∈ (blocks.filter p).map (·.id) ↔ p b = true := by
  constructor
  · intro hmem
    obtain ⟨a, ha, hid⟩ := List.mem_map.mp hmem
    obtain ⟨ha, hpa⟩ := List.mem_filter.mp ha
    rwa [← h.eq_of_id ha hb hid]
  · intro hpb
    exact List.mem_map_of_mem (List.mem_filter.mpr ⟨hb, hpb⟩)

theorem lookup_map_id (h : (blocks.map (·.id)).Nodup) (f : Block → ℕ) {b : Block}
    (hb : b ∈ blocks) : (blocks.map fun b => (b.id, f b)).lookup b.id = some (f b) := by
  induction blocks with
  | nil => cases hb
  | cons a blocks ih =>
    obtain ⟨ha, hblocks⟩ := List.nodup_cons.mp h
    rw [List.map_cons, List.lookup_cons]
    rcases List.mem_cons.mp hb with rfl | hb
    · simp
    · have hne : (b.id == a.id) = false := by
        rw [beq_eq_false_iff_ne]
        intro heq
        exact ha (List.mem_map.mpr ⟨b, hb, heq⟩)
      rw [hne]
      exact ih hblocks hb

/-- The blocks that wait for an input are those that list it. -/
theorem waiting_eq {c : BlockCursor} (h : Distinct c.blocks) (id : BlockId) :
    c.waiting id = (c.blocks.filter (·.inputs.contains id)).map (·.id) := by
  have hone : ∀ b ∈ c.blocks, ((b.inputs.filter (· == id)).map fun _ => b.id) =
      if b.inputs.contains id = true then [b.id] else [] := by
    intro b hb
    by_cases hid : id ∈ b.inputs
    · have hcount : b.inputs.count id = 1 := List.count_eq_one_of_mem (h.inputs b hb) hid
      rw [List.filter_beq, hcount]
      simp [hid]
    · have hfilter : b.inputs.filter (· == id) = [] := by
        rw [List.filter_eq_nil_iff]
        intro i hi heq
        exact hid (eq_of_beq heq ▸ hi)
      simp [hid, hfilter]
  rw [waiting]
  generalize c.blocks = blocks at hone
  induction blocks with
  | nil => rfl
  | cons b blocks ih =>
    rw [List.flatMap_cons, hone b List.mem_cons_self,
      ih fun a ha => hone a (List.mem_cons_of_mem _ ha), List.filter_cons]
    split <;> rfl

theorem reached_start (h : Distinct blocks) : Reached blocks [] (start blocks) := by
  refine ⟨rfl, ?_, rfl, ?_, ?_, ?_⟩
  · exact List.map_congr_left fun b _ => by rw [missing_nil]
  · exact (List.filter_sublist.map _).nodup h.ids
  · intro b hb
    rw [missing_nil, List.nil_append]
    exact (h.mem_ids_filter Block.isLeaf hb).trans (by simp [Block.isLeaf])
  · intro id hid
    exact (List.filter_sublist.map _).subset hid

/-- What a cursor does when it emits a block: the count of each reader falls by one, and those that
have no input left to wait for go to the end of the queue. -/
structure Emits (bs : List Block) (done : List BlockId) (c : BlockCursor) (id : BlockId)
    (rest ready : List BlockId) (d : BlockCursor) : Prop where
  frontier : c.frontier = id :: rest
  blocks : d.blocks = c.blocks
  pending : d.pending = bs.map fun b => (b.id, missing (done ++ [id]) b)
  emitted : d.emitted = c.emitted + 1
  after : d.frontier = rest ++ ready
  fresh : id ∉ done
  nodup : ready.Nodup
  mem_iff : ∀ b ∈ bs, b.id ∈ ready ↔ id ∈ b.inputs ∧ missing (done ++ [id]) b = 0
  subset : ∀ q ∈ ready, ∃ b ∈ bs, b.id = q

theorem Reached.emits {done : List BlockId} {c d : BlockCursor} {id : BlockId}
    (hdistinct : Distinct blocks) (h : Reached blocks done c) (hnext : c.next? = some (id, d)) :
    ∃ rest ready, Emits blocks done c id rest ready d := by
  have hwaiting : c.waiting id = (blocks.filter (·.inputs.contains id)).map (·.id) := by
    rw [waiting_eq (h.blocks ▸ hdistinct), h.blocks]
  have hreaders : ((blocks.filter (·.inputs.contains id)).map (·.id)).Nodup :=
    (List.filter_sublist.map _).nodup hdistinct.ids
  obtain ⟨rest, hfrontier⟩ : ∃ rest, c.frontier = id :: rest := by
    unfold next? at hnext
    split at hnext
    · cases hnext
    next q rest hq =>
      cases hnext
      exact ⟨rest, hq⟩
  have hid : id ∉ done := by
    have hnodup := h.nodup
    rw [hfrontier] at hnodup
    exact fun hmem => List.disjoint_of_nodup_append hnodup hmem List.mem_cons_self
  rw [next?, hfrontier] at hnext
  dsimp only at hnext
  rw [hwaiting, foldl_settle hreaders] at hnext
  cases hnext
  refine ⟨rest, _, hfrontier, rfl, ?_, rfl, rfl, hid, hreaders.filter _, ?_, ?_⟩
  · dsimp only
    rw [h.pending, List.map_map]
    apply List.map_congr_left
    intro b hb
    rw [missing_append (hdistinct.inputs b hb) hid]
    simp only [Function.comp_apply, hdistinct.mem_ids_filter _ hb, List.contains_iff_mem]
  · intro b hb
    rw [List.mem_filter, hdistinct.mem_ids_filter _ hb, h.pending,
      lookup_map_id hdistinct.ids _ hb, missing_append (hdistinct.inputs b hb) hid]
    by_cases hmem : id ∈ b.inputs <;> simp [hmem]
  · intro q hq
    obtain ⟨b, hb, rfl⟩ := List.mem_map.mp (List.mem_of_mem_filter hq)
    exact ⟨b, List.mem_of_mem_filter hb, rfl⟩

/-- A cursor that has emitted one more block. -/
theorem Reached.next {done : List BlockId} {c d : BlockCursor} {id : BlockId}
    (hdistinct : Distinct blocks) (h : Reached blocks done c) (hnext : c.next? = some (id, d)) :
    Reached blocks (done ++ [id]) d := by
  obtain ⟨rest, ready, hemits⟩ := h.emits hdistinct hnext
  have hsplit : done ++ [id] ++ d.frontier = (done ++ c.frontier) ++ ready := by
    rw [hemits.after, hemits.frontier]
    simp
  -- A block that reads the emitted one has not been in the queue, since it was waiting for it.
  have hwaits : ∀ b ∈ blocks, id ∈ b.inputs → b.id ∉ done ++ c.frontier := by
    intro b hb hmem hin
    rw [h.mem_iff b hb, missing_eq_zero_iff] at hin
    exact hemits.fresh (hin id hmem)
  refine ⟨hemits.blocks.trans h.blocks, hemits.pending, ?_, ?_, ?_, ?_⟩
  · rw [hemits.emitted, h.emitted, List.length_append, List.length_singleton]
  · rw [hsplit]
    refine h.nodup.append hemits.nodup ?_
    intro q hq hready
    obtain ⟨b, hb, rfl⟩ := hemits.subset q hready
    exact hwaits b hb ((hemits.mem_iff b hb).mp hready).1 hq
  · intro b hb
    rw [hsplit, List.mem_append, hemits.mem_iff b hb, h.mem_iff b hb,
      missing_append (hdistinct.inputs b hb) hemits.fresh]
    by_cases hmem : id ∈ b.inputs
    · simp [hmem]
      omega
    · simp [hmem]
  · intro q hq
    rw [hsplit] at hq
    rcases List.mem_append.mp hq with hq | hq
    · exact h.subset q hq
    · obtain ⟨b, hb, rfl⟩ := hemits.subset q hq
      exact List.mem_map_of_mem hb

/-! ## The whole order -/

/-- Whether each of some blocks comes behind the blocks that it reads, if others
have come before. -/
def InputsFirst (blocks : List Block) : List BlockId → List BlockId → Prop
  | _, [] => True
  | done, id :: ids =>
    (∀ b ∈ blocks, b.id = id → ∀ i ∈ b.inputs, i ∈ done) ∧ InputsFirst blocks (done ++ [id]) ids

theorem Reached.inputs_of_next {done : List BlockId} {c d : BlockCursor} {id : BlockId}
    (h : Reached blocks done c) (hnext : c.next? = some (id, d)) :
    ∀ b ∈ blocks, b.id = id → ∀ i ∈ b.inputs, i ∈ done := by
  rintro b hb rfl
  rw [← missing_eq_zero_iff, ← h.mem_iff b hb]
  unfold next? at hnext
  split at hnext
  · cases hnext
  next q rest hq =>
    cases hnext
    rw [hq]
    exact List.mem_append_right _ List.mem_cons_self

theorem Reached.take {done : List BlockId} {c : BlockCursor} (hdistinct : Distinct blocks)
    (h : Reached blocks done c) (n : ℕ) :
    Reached blocks (done ++ (c.take n).1) (c.take n).2 ∧ InputsFirst blocks done (c.take n).1 := by
  induction n generalizing done c with
  | zero => exact ⟨by simpa [BlockCursor.take] using h, trivial⟩
  | succ n ih =>
    rw [BlockCursor.take]
    cases hnext : c.next? with
    | none => exact ⟨by simpa using h, trivial⟩
    | some found =>
      obtain ⟨id, d⟩ := found
      obtain ⟨hreached, hordered⟩ := ih (h.next hdistinct hnext)
      rw [List.append_assoc] at hreached
      exact ⟨hreached, h.inputs_of_next hnext, hordered⟩

/-- What a cursor emits: blocks, each once and behind its inputs. -/
theorem drain_spec (hdistinct : Distinct blocks) :
    (start blocks).drain.1.Nodup ∧ (∀ id ∈ (start blocks).drain.1, id ∈ blocks.map (·.id)) ∧
      InputsFirst blocks [] (start blocks).drain.1 := by
  obtain ⟨hreached, hordered⟩ := (reached_start hdistinct).take hdistinct (start blocks).blocks.length
  refine ⟨hreached.nodup.of_append_left.of_append_right, ?_, hordered⟩
  intro id hid
  exact hreached.subset id (List.mem_append_left _ hid)

end BlockQuery.BlockCursor
