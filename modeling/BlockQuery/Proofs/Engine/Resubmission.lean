import BlockQuery.Plan.Builder
import BlockQuery.MasterPlan.Partition
import BlockQuery.Proofs.Engine.Scheduling

/-!
# After a call that failed

A block that has to wait for its inputs is the next one again.  A block that the
dispatcher refuses is not: it has left the cursor, and nobody keeps it.  Its
readers then wait for it in vain, so that the calls can only come to an end
without a block if this is the terminal one.
-/

namespace BlockQuery.Session

section Calls

variable {Q A : Type} {p : MasterPlan} {dispatcher : Dispatcher Q} {s t : Session Q}
  {dispatched : UInt64} {b : Block}

/-- The block that the next call is about. -/
def next? (s : Session Q) : Option Block := s.scheduler.candidate?.map Prod.fst

theorem next?_eq_some_iff : s.next? = some b ↔ ∃ rest, s.scheduler.candidate? = some (b, rest) := by
  simp [next?]

namespace Scheduled

theorem hasNext_iff (hwell : p.WellFormed) (h : Scheduled p dispatched s) :
    s.scheduler.hasNext = true ↔ ∃ b, s.next? = some b := by
  obtain ⟨n, hcursor, -⟩ := h.cursor
  rw [Scheduler.hasNext, next?, Scheduler.candidate?]
  cases s.scheduler.pending with
  | some b => simp
  | none =>
    rw [hcursor, h.plan, Option.isSome_none, Bool.false_or]
    rcases hwell.next?_take n with ⟨hnone, -⟩ | ⟨b, hblock, hnext, -⟩
    · rw [Bool.eq_false_iff.mpr fun hnext => BlockCursor.hasNext_iff.mp hnext
        (BlockCursor.next?_eq_none_iff.mp hnone), hnone]
      simp
    · have hne : (p.cursor.take n).2.frontier ≠ [] := by
        rw [ne_eq, ← BlockCursor.next?_eq_none_iff, hnext]
        simp
      rw [BlockCursor.hasNext_iff.mpr hne, hnext]
      simp [hblock]

/-- The next block has not been handed over before. -/
theorem nodup_append_next (hwell : p.WellFormed) (h : Scheduled p dispatched s)
    (hnext : s.next? = some b) : (s.handed ++ [b]).Nodup := by
  obtain ⟨rest, hcandidate⟩ := next?_eq_some_iff.mp hnext
  obtain ⟨-, -, -, n, -, horder⟩ := h.of_candidate? hwell hcandidate
  rw [horder]
  exact (List.take_sublist n p.order).nodup hwell.nodup_order.of_map

end Scheduled

/-! ## Calls that fail -/

/-- A call fails in front of the dispatcher, and the block stays the next one, or in it, and
the block does not. -/
theorem Scheduled.next?_of_failed (hwell : p.WellFormed) (h : Scheduled p dispatched s)
    {e : DispatchError} (hcall : s.call dispatcher = (.error e, t)) :
    ∃ b, s.next? = some b ∧
      ((t.requests = s.requests ∧ t.next? = some b ∧ t.scheduler.hasNext = true) ∨
        ∃ request, request.block = b ∧ t.requests = s.requests ++ [(request, .error e)] ∧
          t.next? ≠ some b) := by
  have hcalled := called dispatcher s
  rw [hcall] at hcalled
  have ht : Scheduled p dispatched t := h.of_called hwell hcalled
  cases hcalled with
  | @refused b rest _ hnext =>
    have hagain : ({ s with scheduler := { rest with pending := some b } } : Session Q).next? =
        some b := next?_eq_some_iff.mpr ⟨rest, candidate?_pending hnext⟩
    exact ⟨b, next?_eq_some_iff.mpr ⟨rest, hnext⟩,
      Or.inl ⟨rfl, hagain, (ht.hasNext_iff hwell).mpr ⟨b, hagain⟩⟩⟩
  | @lost b rest request _ _ hnext _ hblock =>
    refine ⟨b, next?_eq_some_iff.mpr ⟨rest, hnext⟩, Or.inr ⟨request, hblock, rfl, ?_⟩⟩
    intro hagain
    -- As the next block again it would be handed over twice.
    have hnodup := ht.nodup_append_next hwell hagain
    rw [handed_append (s := s) rfl, hblock] at hnodup
    exact List.disjoint_of_nodup_append hnodup (List.mem_append_right _ (List.mem_singleton_self b))
      (List.mem_singleton_self b)

/-! ## What is never dispatched -/

theorem mem_submissions_iff :
    b ∈ s.submissions.map Prod.fst ↔ ∃ request handle, request.block = b ∧
      (request, .ok handle) ∈ s.requests := by
  simp only [submissions, List.mem_map, List.mem_filterMap, Option.map_eq_some_iff,
    Except.toOption_eq_some]
  constructor
  · rintro ⟨_, ⟨⟨request, answer⟩, hmem, handle, hanswer, rfl⟩, rfl⟩
    cases hanswer
    exact ⟨request, handle, rfl, hmem⟩
  · rintro ⟨request, handle, rfl, hmem⟩
    exact ⟨_, ⟨_, hmem, handle, rfl, rfl⟩, rfl⟩

theorem mem_handed_of_mem_submissions (h : b ∈ s.submissions.map Prod.fst) : b ∈ s.handed := by
  obtain ⟨request, handle, rfl, hmem⟩ := mem_submissions_iff.mp h
  exact List.mem_map.mpr ⟨_, hmem, rfl⟩

/-- Each block is handed over at most once, so one that was refused stays away. -/
theorem Scheduled.notMem_submissions (hwell : p.WellFormed) (h : Scheduled p dispatched s)
    {request : DispatchRequest} {e : DispatchError} (hmem : (request, .error e) ∈ s.requests) :
    request.block ∉ s.submissions.map Prod.fst := by
  intro htaken
  obtain ⟨other, handle, hblock, hother⟩ := mem_submissions_iff.mp htaken
  have hnodup : s.handed.Nodup := h.prefix_order.sublist.nodup hwell.nodup_order.of_map
  cases List.inj_on_of_nodup_map hnodup hother hmem hblock

/-- A block is handed over only when its inputs have been dispatched. -/
theorem Scheduled.inputs_submitted (hwell : p.WellFormed) (h : Scheduled p dispatched s)
    (dispatcher : Dispatcher Q) (perform : A → Q → Q)
    (hs : ∀ b ∈ s.handed, ∀ i ∈ b.inputs, i ∈ s.submissions.map fun found => found.1.id)
    (moves : List (Move A)) :
    ∀ b ∈ (s.after dispatcher perform moves).handed, ∀ i ∈ b.inputs,
      i ∈ (s.after dispatcher perform moves).submissions.map fun found => found.1.id := by
  induction moves with
  | nil => exact hs
  | cons move earlier ih =>
    have hscheduled := h.after hwell dispatcher perform earlier
    rw [Session.after]
    generalize s.after dispatcher perform earlier = t at ih hscheduled
    cases move with
    | act a => exact ih
    | call =>
      have hcalled := called dispatcher t
      rw [Session.step]
      generalize t.call dispatcher = result at hcalled
      have hinputs : ∀ {b rest}, t.scheduler.candidate? = some (b, rest) →
          rest.awaitInputs dispatcher t.queue b.inputs = .ok () →
          ∀ i ∈ b.inputs, i ∈ t.submissions.map fun found => found.1.id := by
        intro b rest hnext hready i hi
        obtain ⟨found, hfound, hid, -⟩ := hscheduled.inputs_succeeded hwell hnext hready i hi
        exact List.mem_map.mpr ⟨found, hfound, hid⟩
      cases hcalled with
      | finished | refused => exact ih
      | lost hnext hready hblock =>
        rw [handed_append (s := t) rfl, submissions_append_error (s := t) rfl, hblock]
        intro b hb
        rcases List.mem_append.mp hb with hb | hb
        · exact ih b hb
        · rw [List.mem_singleton.mp hb]
          exact hinputs hnext hready
      | submitted hnext hready hblock =>
        rw [handed_append (s := t) rfl, submissions_append_ok (s := t) rfl, hblock]
        intro b hb i hi
        rw [List.map_append]
        apply List.mem_append_left
        rcases List.mem_append.mp hb with hb | hb
        · exact ih b hb i hi
        · rw [List.mem_singleton.mp hb] at hi
          exact hinputs hnext hready i hi

/-- At the end every block that somebody reads has been dispatched. -/
theorem Scheduled.mem_submissions_of_finished (hwell : p.WellFormed) (h : Scheduled p dispatched s)
    (hinputs : ∀ b ∈ s.handed, ∀ i ∈ b.inputs, i ∈ s.submissions.map fun found => found.1.id)
    (hnone : s.scheduler.candidate? = none) (hb : b ∈ p.blocks) (hne : b.id ≠ p.terminal) :
    b ∈ s.submissions.map Prod.fst := by
  have hall := h.handed_eq_order hwell hnone
  have hperm := hwell.order_spec.1
  -- A reader of the block has been handed over, which takes the output of the block.
  obtain ⟨c, hc, hread⟩ := hwell.isRead b hb hne
  have hhanded : c ∈ s.handed := hall ▸ hperm.mem_iff.mpr hc
  obtain ⟨found, hfound, hid⟩ := List.mem_map.mp (hinputs c hhanded b.id hread)
  have htaken : found.1 ∈ s.submissions.map Prod.fst := List.mem_map_of_mem hfound
  have hplan : found.1 ∈ p.blocks :=
    hperm.mem_iff.mp (hall ▸ mem_handed_of_mem_submissions htaken)
  rwa [hwell.distinct.eq_of_id hplan hb hid] at htaken

/-- However calls and reports come, and whichever blocks the dispatcher refuses: after a call that
fails the block is still the next one just if it was not handed to the dispatcher.  A block that
was refused there is never dispatched.  When there is no next block, all blocks but the terminal
one have been dispatched, and that one as well just if the dispatcher has refused none. -/
theorem next?_iff_not_handed {query : QueryId} {blocks : List Block} {terminal : BlockId}
    (h : MasterPlan.ofBlocks query blocks terminal = .ok p) (dispatcher : Dispatcher Q)
    (perform : A → Q → Q) (queue : Q) (host : Host) (moves : List (Move A)) {s : Session Q}
    (hs : (start p queue host).after dispatcher perform moves = s) :
    (∀ e t, s.call dispatcher = (.error e, t) → ∃ b, s.next? = some b ∧
      (t.next? = some b ∧ t.scheduler.hasNext = true ↔ t.requests = s.requests) ∧
      (t.requests ≠ s.requests → ∃ request, request.block = b ∧
        t.requests = s.requests ++ [(request, .error e)])) ∧
    (∀ request e, (request, .error e) ∈ s.requests →
      request.block ∉ s.submissions.map Prod.fst) ∧
    ((s.call dispatcher).1 = .ok none →
      (∀ b ∈ blocks, b.id ≠ terminal → b ∈ s.submissions.map Prod.fst) ∧
      ((∀ b ∈ blocks, b ∈ s.submissions.map Prod.fst) ↔
        ∀ request ∈ s.requests, ∃ handle, request.2 = .ok handle)) := by
  obtain ⟨hwell, -, rfl, hperm⟩ := MasterPlan.wellFormed_of_ofBlocks h
  have hscheduled := (scheduled_start p queue host).after hwell dispatcher perform moves
  have hinputs := (scheduled_start p queue host).inputs_submitted hwell dispatcher perform
    (fun _ hb => (List.not_mem_nil hb).elim) moves
  rw [hs] at hscheduled hinputs
  refine ⟨?_, fun request e hmem => hscheduled.notMem_submissions hwell hmem, ?_⟩
  · intro e t hcall
    obtain ⟨b, hb, ⟨hsame, hagain⟩ | ⟨request, hblock, hmore, hgone⟩⟩ :=
      hscheduled.next?_of_failed hwell hcall
    · exact ⟨b, hb, iff_of_true hagain hsame, fun hne => absurd hsame hne⟩
    · refine ⟨b, hb, iff_of_false (fun hagain => hgone hagain.1) ?_, fun _ =>
        ⟨request, hblock, hmore⟩⟩
      simp [hmore]
  · intro hcall
    have hnone : s.scheduler.candidate? = none := by
      have hadvance : (s.scheduler.advance dispatcher s.queue s.host).1 = .ok none := by
        rw [advance_eq]
        exact hcall
      exact candidate?_eq_none hadvance
    have hall := hscheduled.handed_eq_order hwell hnone
    have hmem : ∀ b ∈ s.handed, b ∈ blocks := fun b hb =>
      (hwell.order_spec.1.trans hperm).mem_iff.mp (hall ▸ hb)
    refine ⟨fun b hb hne => hscheduled.mem_submissions_of_finished hwell hinputs hnone
      (hperm.mem_iff.mpr hb) hne, ?_, ?_⟩
    · rintro hblocks ⟨request, answer⟩ hrequest
      cases answer with
      | ok handle => exact ⟨handle, rfl⟩
      | error e =>
        exact absurd (hblocks _ (hmem _ (List.mem_map.mpr ⟨_, hrequest, rfl⟩)))
          (hscheduled.notMem_submissions hwell hrequest)
    · intro hok b hb
      have hhanded : b ∈ s.handed := hall ▸ (hwell.order_spec.1.trans hperm).mem_iff.mpr hb
      obtain ⟨⟨request, answer⟩, hrequest, rfl⟩ := List.mem_map.mp hhanded
      obtain ⟨handle, rfl⟩ := hok _ hrequest
      exact mem_submissions_iff.mpr ⟨request, handle, rfl, hrequest⟩

end Calls

/-! A query of one block for which nobody owns the queue. -/

namespace Abandoned

def query : Plan := .root (.scan ⟨.table "t", [⟨"t.a", .int4⟩], none, none⟩)

def first (p : MasterPlan) : Session Channel :=
  (start p .start Setback.host).later [.act .abandon]

/-- The session after the first call. -/
def second (p : MasterPlan) : Session Channel := ((first p).call Channel.dispatcher).2

end Abandoned

set_option synthInstance.maxSize 256 in
open Abandoned in
/-- The only block of the query is refused.  The next call returns nothing, although no block was
dispatched. -/
theorem none_left_of_abandoned :
    ∃ p, MasterPlan.ofPlan none (QueryId.ofNat 1) query = .ok p ∧ p.order ≠ [] ∧
      ((first p).call Channel.dispatcher).1 = .error .queueClosed ∧
      (second p).scheduler.hasNext = false ∧
      ((second p).call Channel.dispatcher).1 = .ok none ∧
      ((second p).call Channel.dispatcher).2.submissions = [] := by
  have hrun : (MasterPlan.ofPlan none (QueryId.ofNat 1) query).toOption.map (fun p =>
      (p.order.isEmpty, ((first p).call Channel.dispatcher).1, (second p).scheduler.hasNext,
        ((second p).call Channel.dispatcher).1,
        ((second p).call Channel.dispatcher).2.submissions.isEmpty)) =
      some (false, .error .queueClosed, false, .ok none, true) := by decide +kernel
  obtain ⟨p, hp, heq⟩ := Option.map_eq_some_iff.mp hrun
  simp only [Prod.mk.injEq, List.isEmpty_iff, List.isEmpty_eq_false_iff] at heq
  exact ⟨p, Except.toOption_eq_some.mp hp, heq⟩

/-! A dispatcher that takes all blocks but the terminal one. -/

namespace Refusal

open MasterPlan

def selective : Dispatcher ℕ where
  submit request n :=
    if request.terminal then (.error .queueClosed, n) else (.ok ⟨n, request.block.id⟩, n + 1)
  status _ _ := .succeeded 0

def taken : List (Move Empty) := [.call, .call, .call]

/-- The session in front of the terminal block. -/
def third (p : MasterPlan) : Session ℕ := (start p 0 Setback.host).after selective Empty.elim taken

/-- The session behind the terminal block. -/
def fourth (p : MasterPlan) : Session ℕ := ((third p).call selective).2

set_option synthInstance.maxSize 512 in
theorem exists_refused : ∃ p, ofBlocks Diamond.query Diamond.blocks (Diamond.id 4) = .ok p ∧
    ((Setback.waiting p).call Channel.dispatcher).1 =
      .error (.notSucceeded (Diamond.id 1) Setback.failure) ∧
    ((Setback.waiting p).call Channel.dispatcher).2.requests.length =
      (Setback.waiting p).requests.length ∧
    ((third p).call selective).1 = .error .queueClosed ∧
    ((fourth p).call selective).1 = .ok none ∧
    (fourth p).requests.length ≠ (third p).requests.length := by
  have hrun : (ofBlocks Diamond.query Diamond.blocks (Diamond.id 4)).toOption.map (fun p =>
      (((Setback.waiting p).call Channel.dispatcher).1,
        ((Setback.waiting p).call Channel.dispatcher).2.requests.length,
        (Setback.waiting p).requests.length, ((third p).call selective).1,
        ((fourth p).call selective).1, (fourth p).requests.length, (third p).requests.length)) =
      some (.error (.notSucceeded (Diamond.id 1) Setback.failure), 2, 2, .error .queueClosed,
        .ok none, 4, 3) := by decide +kernel
  obtain ⟨p, hp, heq⟩ := Option.map_eq_some_iff.mp hrun
  simp only [Prod.mk.injEq] at heq
  obtain ⟨hwaits, hsame, hbefore, hrefused, hend, hfour, hthree⟩ := heq
  exact ⟨p, Except.toOption_eq_some.mp hp, hwaits, hsame.trans hbefore.symm, hrefused, hend,
    by rw [hfour, hthree]; decide⟩

end Refusal

/-- A block of the diamond that waits for its input comes again.  The terminal block, which the
dispatcher refuses, does not, and is the only one that is not dispatched. -/
theorem next?_after_refusal :
    ∃ p, MasterPlan.ofBlocks MasterPlan.Diamond.query MasterPlan.Diamond.blocks
        (MasterPlan.Diamond.id 4) = .ok p ∧
      (∃ b, (Setback.waiting p).next? = some b ∧
        ((Setback.waiting p).call Channel.dispatcher).2.next? = some b) ∧
      (∃ b, (Refusal.third p).next? = some b ∧
        ¬((Refusal.fourth p).next? = some b ∧ (Refusal.fourth p).scheduler.hasNext = true) ∧
        b ∉ (Refusal.fourth p).submissions.map Prod.fst) ∧
      ∀ b ∈ MasterPlan.Diamond.blocks, b.id ≠ MasterPlan.Diamond.id 4 →
        b ∈ (Refusal.fourth p).submissions.map Prod.fst := by
  obtain ⟨p, hp, hwaits, hsame, hrefused, hend, hmore⟩ := Refusal.exists_refused
  obtain ⟨hcalls, -, -⟩ := next?_iff_not_handed hp Channel.dispatcher Channel.Act.perform .start
    Setback.host Setback.moves (s := Setback.waiting p) rfl
  obtain ⟨b, hb, hagain, hhanded⟩ := hcalls _ _ (Prod.ext hwaits rfl)
  obtain ⟨hterminal, -, -⟩ := next?_iff_not_handed hp Refusal.selective Empty.elim 0 Setback.host
    Refusal.taken (s := Refusal.third p) rfl
  obtain ⟨_, ht, hgone, hlast⟩ := hterminal _ _ (Prod.ext hrefused rfl)
  obtain ⟨-, hlost, hfinished⟩ := next?_iff_not_handed hp Refusal.selective Empty.elim 0
    Setback.host (.call :: Refusal.taken) (s := Refusal.fourth p) rfl
  have hne : (Refusal.fourth p).requests ≠ (Refusal.third p).requests := fun heq =>
    hmore (congrArg List.length heq)
  obtain ⟨request, rfl, hrequests⟩ := hlast hne
  refine ⟨p, hp, ⟨b, hb, (hagain.mpr ?_).1⟩, ⟨_, ht, fun h => hne (hgone.mp h), ?_⟩,
    (hfinished hend).1⟩
  · by_contra hdiffer
    obtain ⟨_, -, happend⟩ := hhanded hdiffer
    simp [happend] at hsame
  · apply hlost request .queueClosed
    change _ ∈ ((Refusal.third p).call Refusal.selective).2.requests
    rw [hrequests]
    simp

end BlockQuery.Session
