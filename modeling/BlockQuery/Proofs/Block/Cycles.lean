import BlockQuery.Proofs.Block.Order

/-!
# Cycles among blocks

Blocks read each other in a cycle if one of them needs its own output, directly
or by way of others.  A cursor emits all blocks just if there is no cycle: what
it cannot emit reads something else that it cannot emit.
-/

namespace BlockQuery

/-- Whether the block with the first id lists the second one as an input. -/
def Block.Reads (blocks : List Block) (id input : BlockId) : Prop :=
  ∃ b ∈ blocks, b.id = id ∧ input ∈ b.inputs

/-- Whether some block needs its own output in the end. -/
def Block.Cyclic (blocks : List Block) : Prop :=
  ∃ id, Relation.TransGen (Reads blocks) id id

open Block (Reads Cyclic)

/-- Among finitely many elements, each related to another one of them, some element is related to
itself in some steps. -/
theorem exists_transGen_self {α : Type} {r : α → α → Prop} {s : Set α} (hfinite : s.Finite)
    (hsome : s.Nonempty) (hnext : ∀ a ∈ s, ∃ b ∈ s, r a b) : ∃ a, Relation.TransGen r a a := by
  by_contra hnone
  have : Finite s := hfinite
  let behind : s → s → Prop := fun b a => Relation.TransGen r a.1 b.1
  have htrans : IsTrans s behind := ⟨fun _ _ _ hba hcb => hcb.trans hba⟩
  have hirrefl : Std.Irrefl behind := ⟨fun a h => hnone ⟨a.1, h⟩⟩
  obtain ⟨a, -, hlast⟩ :=
    (Finite.wellFounded_of_trans_of_irrefl behind).has_min Set.univ ⟨⟨_, hsome.some_mem⟩, trivial⟩
  obtain ⟨b, hb, hab⟩ := hnext a.1 a.2
  exact hlast ⟨b, hb⟩ trivial (.single hab)

theorem not_transGen_self {α : Type} {r : α → α → Prop} {a : α} (h : Acc (flip r) a) :
    ¬Relation.TransGen r a a := by
  have hacc := h.transGen
  clear h
  induction hacc with
  | intro a _ ih =>
    intro hcycle
    exact ih a (Relation.transGen_swap.mpr hcycle) hcycle

namespace BlockCursor

variable {blocks : List Block}

/-- A cursor stops before the wanted number of blocks only if no block is ready. -/
theorem length_take_or (n : ℕ) (c : BlockCursor) :
    (c.take n).1.length = n ∨ (c.take n).2.frontier = [] := by
  induction n generalizing c with
  | zero => exact Or.inl rfl
  | succ n ih =>
    rw [take]
    cases hnext : c.next? with
    | none =>
      refine Or.inr ?_
      unfold next? at hnext
      split at hnext
      next hempty => exact hempty
      next => cases hnext
    | some found =>
      refine (ih found.2).imp (fun hlength => ?_) id
      exact congrArg (· + 1) hlength

/-- If no block is ready, those that were not emitted read each other in a cycle. -/
theorem Reached.cyclic {done : List BlockId} {c : BlockCursor} (h : Reached blocks done c)
    (hinputs : ∀ b ∈ blocks, ∀ i ∈ b.inputs, i ∈ blocks.map Block.id) (hempty : c.frontier = [])
    (hleft : ∃ b ∈ blocks, b.id ∉ done) : Cyclic blocks := by
  have hfinite : {id | id ∈ blocks.map Block.id ∧ id ∉ done}.Finite :=
    (List.finite_toSet (blocks.map Block.id)).subset fun id hid => hid.1
  obtain ⟨b, hb, hnot⟩ := hleft
  refine exists_transGen_self hfinite ⟨b.id, List.mem_map_of_mem hb, hnot⟩ ?_
  rintro id ⟨hmem, hnot⟩
  obtain ⟨b, hb, rfl⟩ := List.mem_map.mp hmem
  have hmissing : ¬∀ i ∈ b.inputs, i ∈ done := by
    rw [← missing_eq_zero_iff, ← h.mem_iff b hb, hempty, List.append_nil]
    exact hnot
  push Not at hmissing
  obtain ⟨i, hi, hdone⟩ := hmissing
  exact ⟨i, ⟨hinputs b hb i hi, hdone⟩, b, hb, rfl, hi⟩

/-- Blocks that come behind all their inputs cannot be reached from themselves. -/
theorem InputsFirst.acc {done ids : List BlockId} (h : InputsFirst blocks done ids)
    (hdone : ∀ i ∈ done, Acc (flip (Reads blocks)) i) :
    ∀ i ∈ done ++ ids, Acc (flip (Reads blocks)) i := by
  induction ids generalizing done with
  | nil => rwa [List.append_nil]
  | cons id ids ih =>
    obtain ⟨hid, hrest⟩ := h
    have hnext : ∀ i ∈ done ++ [id], Acc (flip (Reads blocks)) i := by
      intro i hi
      rcases List.mem_append.mp hi with hi | hi
      · exact hdone i hi
      · rw [List.mem_singleton.mp hi]
        refine ⟨id, ?_⟩
        rintro input ⟨b, hb, hbid, hinput⟩
        exact hdone input (hid b hb hbid input hinput)
    have hall := ih hrest hnext
    rwa [List.append_assoc] at hall

/-- All blocks are emitted just if they do not read each other in a cycle. -/
theorem length_drain_eq_iff (hdistinct : Distinct blocks)
    (hinputs : ∀ b ∈ blocks, ∀ i ∈ b.inputs, i ∈ blocks.map Block.id) :
    (start blocks).drain.1.length = blocks.length ↔ ¬Cyclic blocks := by
  obtain ⟨hreached, hordered⟩ := (reached_start hdistinct).take hdistinct blocks.length
  rw [List.nil_append] at hreached
  change Reached blocks (start blocks).drain.1 (start blocks).drain.2 at hreached
  change InputsFirst blocks [] (start blocks).drain.1 at hordered
  have hnodup := hreached.nodup.of_append_left
  have hsubset : ∀ id ∈ (start blocks).drain.1, id ∈ blocks.map Block.id :=
    fun id hid => hreached.subset id (List.mem_append_left _ hid)
  constructor
  · rintro hlength ⟨id, hcycle⟩
    have hperm : (start blocks).drain.1.Perm (blocks.map Block.id) :=
      (hnodup.subperm hsubset).perm_of_length_le (by rw [List.length_map, hlength])
    obtain ⟨_, ⟨b, hb, rfl, -⟩, -⟩ := Relation.TransGen.head'_iff.mp hcycle
    have hacc := hordered.acc (fun i hi => absurd hi List.not_mem_nil) b.id
      (hperm.mem_iff.mpr (List.mem_map_of_mem hb))
    exact not_transGen_self hacc hcycle
  · intro hacyclic
    by_contra hlength
    have hempty : (start blocks).drain.2.frontier = [] :=
      (length_take_or blocks.length (start blocks)).resolve_left hlength
    refine hacyclic (hreached.cyclic hinputs hempty ?_)
    by_contra hall
    push Not at hall
    refine hlength (Nat.le_antisymm ?_ ?_)
    · rw [← List.length_map (f := Block.id)]
      exact (hnodup.subperm hsubset).length_le
    · rw [← List.length_map (f := Block.id)]
      refine (hdistinct.ids.subperm ?_).length_le
      intro id hid
      obtain ⟨b, hb, rfl⟩ := List.mem_map.mp hid
      exact hall b hb

end BlockCursor

end BlockQuery
