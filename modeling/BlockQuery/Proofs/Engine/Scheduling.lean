import BlockQuery.Engine.Scheduler
import BlockQuery.Proofs.MasterPlan.Emission

/-!
# Scheduling between reports

While a query is scheduled, calls for the next block come between the reports of
the owner of the queue, in any order.  What is handed over is a beginning of the
order of the plan at every time: a block that has to wait is kept, and one that
is handed over has left the cursor for good.
-/

namespace BlockQuery

/-! ## One block further -/

namespace BlockCursor

theorem take_succ (n : ℕ) (c : BlockCursor) : c.take (n + 1) =
    match (c.take n).2.next? with
    | none => c.take n
    | some (id, d) => ((c.take n).1 ++ [id], d) := by
  induction n generalizing c with
  | zero =>
    simp only [take]
    cases c.next? <;> rfl
  | succ n ih =>
    cases hnext : c.next? with
    | none => simp [take, hnext]
    | some found =>
      have htake : ∀ k, c.take (k + 1) = (found.1 :: (found.2.take k).1, (found.2.take k).2) := by
        intro k
        rw [take, hnext]
      rw [htake, htake, ih]
      dsimp only
      cases (found.2.take n).2.next? <;> rfl

end BlockCursor

/-- The cursor of a plan emits the next block of the order, or all have been emitted. -/
theorem MasterPlan.WellFormed.next?_take {p : MasterPlan} (h : p.WellFormed) (n : ℕ) :
    ((p.cursor.take n).2.next? = none ∧ p.order.take n = p.order) ∨
      ∃ b, p.block? b.id = some b ∧
        (p.cursor.take n).2.next? = some (b.id, (p.cursor.take (n + 1)).2) ∧
        p.order.take (n + 1) = p.order.take n ++ [b] := by
  have hlength := h.length_take n
  have hperm := h.order_spec.1
  have hsucc := BlockCursor.take_succ n p.cursor
  cases hnext : (p.cursor.take n).2.next? with
  | none =>
    refine Or.inl ⟨rfl, List.take_of_length_le ?_⟩
    have hall := (h.frontier_take_eq_nil_iff n).mp (BlockCursor.next?_eq_none_iff.mp hnext)
    rw [hperm.length_eq]
    omega
  | some found =>
    obtain ⟨id, d⟩ := found
    rw [hnext] at hsucc
    have hlt : n < p.order.length := by
      by_contra hle
      have hempty : (p.cursor.take n).2.frontier = [] := by
        rw [h.frontier_take_eq_nil_iff, hlength, ← hperm.length_eq]
        omega
      rw [BlockCursor.next?_eq_none_iff.mpr hempty] at hnext
      cases hnext
    have horder : p.order.take (n + 1) = p.order.take n ++ [p.order[n]] :=
      (List.take_append_getElem hlt).symm
    have hids := congrArg Prod.fst hsucc
    simp only [h.take_eq, ← List.map_take, horder, List.map_append] at hids
    have hid : p.order[n].id = id := by simpa using hids
    subst hid
    refine Or.inr ⟨p.order[n], ?_, ?_, horder⟩
    · exact h.block?_of_mem (hperm.mem_iff.mp (List.getElem_mem hlt))
    · rw [hsucc]

theorem MasterPlan.WellFormed.length_le {p : MasterPlan} (h : p.WellFormed) :
    p.blocks.length ≤ 2 ^ 32 := by
  have hnodup : ((p.blocks.map fun b => b.id.seq).map UInt32.toNat).Nodup :=
    h.nodup_seqs.map fun _ _ heq => UInt32.toNat_inj.mp heq
  have hsubset : ∀ n ∈ (p.blocks.map fun b => b.id.seq).map UInt32.toNat,
      n ∈ List.range (2 ^ 32) := by
    intro n hn
    obtain ⟨seq, -, rfl⟩ := List.mem_map.mp hn
    exact List.mem_range.mpr seq.toNat_lt
  have hlength := (hnodup.subperm hsubset).length_le
  rwa [List.length_map, List.length_map, List.length_range] at hlength

/-! ## What goes through a dispatcher -/

theorem Scheduler.awaitInputs_eq_ok_iff {Q : Type} {s : Scheduler} {dispatcher : Dispatcher Q}
    {queue : Q} {inputs : List BlockId} : s.awaitInputs dispatcher queue inputs = .ok () ↔
      ∀ i ∈ inputs, ∃ handle, s.handle? i = some handle ∧
        (dispatcher.status handle queue).hasSucceeded = true := by
  induction inputs with
  | nil => simp [awaitInputs]
  | cons input rest ih =>
    rw [awaitInputs, status, List.forall_mem_cons, ← ih]
    cases s.handle? input with
    | none => simp
    | some handle =>
      by_cases hstate : (dispatcher.status handle queue).hasSucceeded <;> simp [hstate]

/-- What was handed over to a dispatcher, with its answer. -/
abbrev Answered := DispatchRequest × Except DispatchError DispatchHandle

/-- A dispatcher that keeps a record of what is handed over to it. -/
def Dispatcher.recorded {Q : Type} (dispatcher : Dispatcher Q) :
    Dispatcher (Q × List Answered) where
  submit request queue :=
    let (answer, rest) := dispatcher.submit request queue.1
    (answer, rest, queue.2 ++ [(request, answer)])
  status handle queue := dispatcher.status handle queue.1

theorem Dispatcher.recorded_submit {Q : Type} {dispatcher : Dispatcher Q}
    {request : DispatchRequest} {answer : Except DispatchError DispatchHandle} {queue rest : Q}
    (h : dispatcher.submit request queue = (answer, rest)) (requests : List Answered) :
    dispatcher.recorded.submit request (queue, requests) =
      (answer, rest, requests ++ [(request, answer)]) := by
  simp only [recorded, h]

/-- A scheduler with its surroundings, and what it has handed over so far. -/
structure Session (Q : Type) where
  scheduler : Scheduler
  queue : Q
  requests : List Answered
  host : Host

/-- A call for the next block, or something that is done to the queue. -/
inductive Move (A : Type) where
  | call
  | act (a : A)
deriving Repr

namespace Session

variable {Q A : Type} {p : MasterPlan} {dispatcher : Dispatcher Q} {s : Session Q}

def start (p : MasterPlan) (queue : Q) (host : Host) : Session Q :=
  ⟨Scheduler.start p, queue, [], host⟩

def call (dispatcher : Dispatcher Q) (s : Session Q) :
    Except DispatchError (Option DispatchHandle) × Session Q :=
  let (answer, scheduler, (queue, requests), host) :=
    s.scheduler.advance dispatcher.recorded (s.queue, s.requests) s.host
  (answer, ⟨scheduler, queue, requests, host⟩)

def step (dispatcher : Dispatcher Q) (perform : A → Q → Q) (s : Session Q) : Move A → Session Q
  | .call => (s.call dispatcher).2
  | .act a => { s with queue := perform a s.queue }

/-- The session after some moves, the last one of which comes first. -/
def after (dispatcher : Dispatcher Q) (perform : A → Q → Q) (s : Session Q) :
    List (Move A) → Session Q
  | [] => s
  | move :: earlier => (s.after dispatcher perform earlier).step dispatcher perform move

/-- The blocks that were handed over. -/
def handed (s : Session Q) : List Block := s.requests.map fun request => request.1.block

/-- The blocks that the dispatcher has taken, with their handles. -/
def submissions (s : Session Q) : List (Block × DispatchHandle) :=
  s.requests.filterMap fun request =>
    request.2.toOption.map fun handle => (request.1.block, handle)

/-! ## One call -/

theorem awaitInputs_recorded (scheduler : Scheduler) (queue : Q) (requests : List Answered)
    (inputs : List BlockId) :
    scheduler.awaitInputs dispatcher.recorded (queue, requests) inputs =
      scheduler.awaitInputs dispatcher queue inputs := by
  induction inputs with
  | nil => rfl
  | cons input rest ih =>
    simp only [Scheduler.awaitInputs, ih]
    rfl

/-- What a call comes to. -/
inductive Called (dispatcher : Dispatcher Q) (s : Session Q) :
    Except DispatchError (Option DispatchHandle) × Session Q → Prop
  | finished (next : s.scheduler.candidate? = none) : Called dispatcher s (.ok none, s)
  | refused {b : Block} {rest : Scheduler} {e : DispatchError}
    (next : s.scheduler.candidate? = some (b, rest))
    (waits : rest.awaitInputs dispatcher s.queue b.inputs = .error e) :
    Called dispatcher s (.error e, { s with scheduler := { rest with pending := some b } })
  | lost {b : Block} {rest : Scheduler} {request : DispatchRequest} {e : DispatchError} {queue : Q}
    (next : s.scheduler.candidate? = some (b, rest))
    (ready : rest.awaitInputs dispatcher s.queue b.inputs = .ok ())
    (block : request.block = b)
    (submit : dispatcher.submit request s.queue = (.error e, queue)) :
    Called dispatcher s (.error e, ⟨rest, queue, s.requests ++ [(request, .error e)], s.host⟩)
  | submitted {b : Block} {rest : Scheduler} {request : DispatchRequest} {handle : DispatchHandle}
    {queue : Q} (next : s.scheduler.candidate? = some (b, rest))
    (ready : rest.awaitInputs dispatcher s.queue b.inputs = .ok ())
    (block : request.block = b)
    (submit : dispatcher.submit request s.queue = (.ok handle, queue)) :
    Called dispatcher s (.ok (some handle),
      ⟨{ rest with handles := (b.id, handle) :: rest.handles }, queue,
        s.requests ++ [(request, .ok handle)],
        (s.host.count .blocksDispatched 1).report .blockDispatched
          (Scheduler.dispatchFields b handle)⟩)

theorem called (dispatcher : Dispatcher Q) (s : Session Q) :
    Called dispatcher s (s.call dispatcher) := by
  rw [call, Scheduler.advance]
  cases hnext : s.scheduler.candidate? with
  | none => exact .finished hnext
  | some found =>
    obtain ⟨b, rest⟩ := found
    simp only [awaitInputs_recorded]
    cases hawait : rest.awaitInputs dispatcher s.queue b.inputs with
    | error e => exact .refused hnext hawait
    | ok u =>
      rcases hsubmit : dispatcher.submit ⟨b, b.id == s.scheduler.plan.terminal⟩ s.queue
        with ⟨e | handle, queue⟩
      · simp only [Dispatcher.recorded_submit hsubmit]
        exact .lost hnext hawait rfl hsubmit
      · simp only [Dispatcher.recorded_submit hsubmit]
        exact .submitted hnext hawait rfl hsubmit

/-- The record changes nothing. -/
theorem advance_eq (dispatcher : Dispatcher Q) (s : Session Q) :
    s.scheduler.advance dispatcher s.queue s.host =
      ((s.call dispatcher).1, (s.call dispatcher).2.scheduler, (s.call dispatcher).2.queue,
        (s.call dispatcher).2.host) := by
  rw [call, Scheduler.advance, Scheduler.advance]
  rcases s.scheduler.candidate? with _ | ⟨b, rest⟩
  · rfl
  · simp only [awaitInputs_recorded]
    rcases rest.awaitInputs dispatcher s.queue b.inputs with e | u
    · rfl
    · rcases hsubmit : dispatcher.submit ⟨b, b.id == s.scheduler.plan.terminal⟩ s.queue
        with ⟨e | handle, queue⟩ <;> simp only [Dispatcher.recorded_submit hsubmit]

/-- A call that hands nothing over leaves everything but the place of the next block. -/
theorem candidate?_pending {scheduler rest : Scheduler} {b : Block}
    (h : scheduler.candidate? = some (b, rest)) :
    ({ rest with pending := some b } : Scheduler).candidate? = some (b, rest) := by
  rw [Scheduler.candidate?] at h
  split at h
  next =>
    cases h
    rfl
  next hpending =>
    obtain ⟨⟨id, cursor⟩, -, h⟩ := Option.bind_eq_some_iff.mp h
    obtain ⟨b', -, h⟩ := Option.bind_eq_some_iff.mp h
    cases h
    simp [Scheduler.candidate?, hpending]

theorem candidate?_eq_none
    (h : (s.scheduler.advance dispatcher s.queue s.host).1 = .ok none) :
    s.scheduler.candidate? = none := by
  have hcalled := called dispatcher s
  rw [advance_eq] at h
  generalize s.call dispatcher = result at hcalled h
  cases hcalled with
  | finished hnext => exact hnext
  | refused | lost | submitted => cases h

/-! ## What holds at every time -/

/-- Where a scheduler is in its plan, and what it has kept in mind. -/
structure Scheduled (p : MasterPlan) (dispatched : UInt64) (s : Session Q) : Prop where
  plan : s.scheduler.plan = p
  cursor : ∃ n, s.scheduler.cursor = (p.cursor.take n).2 ∧
    s.handed ++ s.scheduler.pending.toList = p.order.take n
  handles : s.scheduler.handles = (s.submissions.map fun found => (found.1.id, found.2)).reverse
  counted : s.host.counters.get .blocksDispatched = dispatched + UInt64.ofNat s.submissions.length

theorem scheduled_start (p : MasterPlan) (queue : Q) (host : Host) :
    Scheduled p (host.counters.get .blocksDispatched) (start p queue host) where
  plan := rfl
  cursor := ⟨0, rfl, rfl⟩
  handles := rfl
  counted := by simp [start, submissions]

namespace Scheduled

variable {dispatched : UInt64} {b : Block} {rest : Scheduler}

theorem handed_eq_order (hwell : p.WellFormed) (h : Scheduled p dispatched s)
    (hnone : s.scheduler.candidate? = none) : s.handed = p.order := by
  obtain ⟨n, hcursor, horder⟩ := h.cursor
  rw [Scheduler.candidate?] at hnone
  split at hnone
  next => cases hnone
  next hpending =>
    rcases hwell.next?_take n with ⟨-, hall⟩ | ⟨b, hblock, hnext, -⟩
    · rw [← hall, ← horder, hpending]
      simp
    · rw [hcursor, hnext, h.plan] at hnone
      simp [hblock] at hnone

/-- The next block comes right behind those that were handed over. -/
theorem of_candidate? (hwell : p.WellFormed) (h : Scheduled p dispatched s)
    (hsome : s.scheduler.candidate? = some (b, rest)) :
    rest.plan = p ∧ rest.pending = none ∧ rest.handles = s.scheduler.handles ∧
      ∃ n, rest.cursor = (p.cursor.take n).2 ∧ s.handed ++ [b] = p.order.take n := by
  obtain ⟨n, hcursor, horder⟩ := h.cursor
  rw [Scheduler.candidate?] at hsome
  split at hsome
  next hpending =>
    cases hsome
    exact ⟨h.plan, rfl, rfl, n, hcursor, by simpa [hpending] using horder⟩
  next hpending =>
    rcases hwell.next?_take n with ⟨hnone, -⟩ | ⟨c, hblock, hnext, horder'⟩
    · rw [hcursor, hnone] at hsome
      cases hsome
    · rw [hcursor, hnext, h.plan] at hsome
      simp only [hblock, Option.bind_eq_bind, Option.bind_some, Option.pure_def] at hsome
      cases hsome
      refine ⟨rfl, hpending, rfl, n + 1, rfl, ?_⟩
      rw [horder', ← horder, hpending]
      simp

theorem prefix_order (h : Scheduled p dispatched s) : s.handed <+: p.order := by
  obtain ⟨n, -, horder⟩ := h.cursor
  have htake : s.handed <+: p.order.take n := ⟨_, horder⟩
  exact htake.trans (List.take_prefix n p.order)

theorem length_submissions_le (hwell : p.WellFormed) (h : Scheduled p dispatched s) :
    s.submissions.length ≤ 2 ^ 32 :=
  calc s.submissions.length
    _ ≤ s.requests.length := List.length_filterMap_le _ _
    _ = s.handed.length := by simp [handed]
    _ ≤ p.order.length := h.prefix_order.length_le
    _ = p.blocks.length := hwell.order_spec.1.length_eq
    _ ≤ 2 ^ 32 := hwell.length_le

theorem toNat_counted (hwell : p.WellFormed) (h : Scheduled p dispatched s) :
    (s.host.counters.get .blocksDispatched - dispatched).toNat = s.submissions.length := by
  have hlength := h.length_submissions_le hwell
  rw [h.counted, UInt64.add_comm, UInt64.add_sub_cancel]
  exact UInt64.toNat_ofNat_of_lt' (by norm_num [UInt64.size]; omega)

end Scheduled

section Append

variable {t : Session Q} {request : DispatchRequest}

theorem handed_append {answer : Except DispatchError DispatchHandle}
    (h : t.requests = s.requests ++ [(request, answer)]) :
    t.handed = s.handed ++ [request.block] := by
  simp [handed, h]

theorem submissions_append_error {e : DispatchError}
    (h : t.requests = s.requests ++ [(request, .error e)]) : t.submissions = s.submissions := by
  simp [submissions, h, Except.toOption]

theorem submissions_append_ok {handle : DispatchHandle}
    (h : t.requests = s.requests ++ [(request, .ok handle)]) :
    t.submissions = s.submissions ++ [(request.block, handle)] := by
  simp [submissions, h, Except.toOption]

end Append

theorem Scheduled.of_called (hwell : p.WellFormed) {dispatched : UInt64}
    (h : Scheduled p dispatched s)
    {result : Except DispatchError (Option DispatchHandle) × Session Q}
    (hcalled : Called dispatcher s result) : Scheduled p dispatched result.2 := by
  cases hcalled with
  | finished => exact h
  | refused hnext =>
    obtain ⟨hplan, -, hhandles, n, hcursor, horder⟩ := h.of_candidate? hwell hnext
    exact ⟨hplan, ⟨n, hcursor, horder⟩, hhandles.trans h.handles, h.counted⟩
  | lost hnext _ hblock =>
    subst hblock
    obtain ⟨hplan, hpending, hhandles, n, hcursor, horder⟩ := h.of_candidate? hwell hnext
    refine ⟨hplan, ⟨n, hcursor, ?_⟩, ?_, ?_⟩
    · rw [handed_append (s := s) rfl, hpending]
      simpa using horder
    · rw [submissions_append_error (s := s) rfl, hhandles, h.handles]
    · rw [submissions_append_error (s := s) rfl, h.counted]
  | submitted hnext _ hblock =>
    subst hblock
    obtain ⟨hplan, hpending, hhandles, n, hcursor, horder⟩ := h.of_candidate? hwell hnext
    refine ⟨hplan, ⟨n, hcursor, ?_⟩, ?_, ?_⟩
    · rw [handed_append (s := s) rfl, hpending]
      simpa using horder
    · rw [submissions_append_ok (s := s) rfl, hhandles, h.handles]
      simp
    · rw [submissions_append_ok (s := s) rfl, List.length_append, List.length_singleton,
        UInt64.ofNat_add, ← UInt64.add_assoc, ← h.counted]
      exact (s.host.counters.get_add .blocksDispatched .blocksDispatched 1).trans (if_pos rfl)

theorem Scheduled.step (hwell : p.WellFormed) {dispatched : UInt64} (h : Scheduled p dispatched s)
    (dispatcher : Dispatcher Q) (perform : A → Q → Q) (move : Move A) :
    Scheduled p dispatched (s.step dispatcher perform move) := by
  cases move with
  | call => exact h.of_called hwell (called dispatcher s)
  | act a => exact ⟨h.plan, h.cursor, h.handles, h.counted⟩

theorem Scheduled.after (hwell : p.WellFormed) {dispatched : UInt64} (h : Scheduled p dispatched s)
    (dispatcher : Dispatcher Q) (perform : A → Q → Q) (moves : List (Move A)) :
    Scheduled p dispatched (s.after dispatcher perform moves) := by
  induction moves with
  | nil => exact h
  | cons move earlier ih => exact ih.step hwell dispatcher perform move

/-- Handles are kept for submissions only, so what is known of an input goes back to one. -/
theorem Scheduled.inputs_succeeded (hwell : p.WellFormed) {dispatched : UInt64}
    (h : Scheduled p dispatched s) {b : Block} {rest : Scheduler}
    (hnext : s.scheduler.candidate? = some (b, rest))
    (hready : rest.awaitInputs dispatcher s.queue b.inputs = .ok ()) :
    ∀ i ∈ b.inputs, ∃ found ∈ s.submissions, found.1.id = i ∧
      (dispatcher.status found.2 s.queue).hasSucceeded = true := by
  obtain ⟨-, -, hhandles, -⟩ := h.of_candidate? hwell hnext
  intro i hi
  obtain ⟨handle, hhandle, hstatus⟩ := Scheduler.awaitInputs_eq_ok_iff.mp hready i hi
  rw [Scheduler.handle?, hhandles, h.handles] at hhandle
  obtain ⟨before, later, hsplit, -⟩ := List.lookup_eq_some_iff.mp hhandle
  have hmem : (i, handle) ∈ (s.submissions.map fun found => (found.1.id, found.2)).reverse := by
    simp [hsplit]
  obtain ⟨found, hfound, heq⟩ := List.mem_map.mp (List.mem_reverse.mp hmem)
  cases heq
  exact ⟨found, hfound, rfl, hstatus⟩

theorem Scheduled.inputs_succeeded_of_request (hwell : p.WellFormed) {dispatched : UInt64}
    (h : Scheduled p dispatched s) {request : DispatchRequest}
    {answer : Except DispatchError DispatchHandle}
    (hrequest : (s.call dispatcher).2.requests = s.requests ++ [(request, answer)]) :
    ∀ i ∈ request.block.inputs, ∃ found ∈ s.submissions, found.1.id = i ∧
      (dispatcher.status found.2 s.queue).hasSucceeded = true := by
  have hcalled := called dispatcher s
  generalize s.call dispatcher = result at hcalled hrequest
  cases hcalled with
  | finished | refused => simp at hrequest
  | lost hnext hready hblock | submitted hnext hready hblock =>
    cases List.append_cancel_left hrequest
    subst hblock
    exact h.inputs_succeeded hwell hnext hready

theorem map_submissions_after (hnever : ∀ request queue, ∃ handle,
      (dispatcher.submit request queue).1 = .ok handle) (perform : A → Q → Q)
    (hstart : s.submissions.map Prod.fst = s.handed) (moves : List (Move A)) :
    (s.after dispatcher perform moves).submissions.map Prod.fst =
      (s.after dispatcher perform moves).handed := by
  induction moves with
  | nil => exact hstart
  | cons move earlier ih =>
    rw [after]
    generalize s.after dispatcher perform earlier = t at ih
    cases move with
    | act a => exact ih
    | call =>
      have hcalled := called dispatcher t
      rw [step]
      generalize t.call dispatcher = result at hcalled
      cases hcalled with
      | finished | refused => exact ih
      | @lost _ _ request _ _ _ _ _ hsubmit =>
        obtain ⟨handle, hhandle⟩ := hnever request t.queue
        rw [hsubmit] at hhandle
        cases hhandle
      | submitted =>
        rw [submissions_append_ok (s := t) rfl, handed_append (s := t) rfl, ← ih]
        simp

end Session

/-! ## The reports of a channel -/

/-- What the owner of a channel can do to it. -/
inductive Channel.Act where
  | report (handle : DispatchHandle) (state : BlockState)
  | take
  | abandon
deriving Repr

def Channel.Act.perform : Channel.Act → Channel → Channel
  | report handle state, c => c.report handle state
  | take, c => (c.take?.map Prod.snd).getD c
  | abandon, c => c.abandon

/-- A handle is spent even if nobody owns the queue. -/
theorem Channel.submit_spec {request : DispatchRequest} {c d : Channel}
    {answer : Except DispatchError DispatchHandle} (h : c.submit request = (answer, d)) :
    d.nextId = c.nextId + 1 ∧ d.states = (c.nextId, .queued) :: c.states ∧
      (∀ handle, answer = .ok handle → handle.id = c.nextId) ∧
      ∀ e, answer = .error e → e = .queueClosed := by
  unfold Channel.submit at h
  dsimp only at h
  split at h
  all_goals
    cases h
    simp [Channel.report]

theorem Channel.perform_take (c : Channel) :
    (Act.perform .take c).nextId = c.nextId ∧ (Act.perform .take c).states = c.states := by
  rw [Act.perform, take?]
  cases c.waiting <;> exact ⟨rfl, rfl⟩

namespace Session

variable {p : MasterPlan} {s : Session Channel}

/-- What a move reports of a handle: that its block waits in the queue when it is handed out, and
later what the owner says. -/
def newReports (s : Session Channel) : Move Channel.Act → List (Nat × BlockState)
  | .call =>
    match (s.call Channel.dispatcher).1 with
    | .ok (some handle) => [(handle.id, .queued)]
    | _ => []
  | .act (.report handle state) => [(handle.id, state)]
  | .act .take | .act .abandon => []

/-- The session of a channel after some moves of which the last one comes first. -/
abbrev later (s : Session Channel) (moves : List (Move Channel.Act)) : Session Channel :=
  s.after Channel.dispatcher Channel.Act.perform moves

/-- All reports, the last one first. -/
def reports (s : Session Channel) : List (Move Channel.Act) → List (Nat × BlockState)
  | [] => []
  | move :: earlier => (s.later earlier).newReports move ++ s.reports earlier

/-- Whether the channel answers for the handles that it has given out as it was told. -/
structure Tracked (s : Session Channel) (reports : List (Nat × BlockState)) : Prop where
  fresh : ∀ found ∈ s.submissions, found.2.id < s.queue.nextId
  told : ∀ found ∈ s.submissions,
    s.queue.states.lookup found.2.id = reports.lookup found.2.id

/-- A handle that has been given out is not the next one. -/
theorem Tracked.lookup_cons {reports : List (Nat × BlockState)} (h : Tracked s reports)
    {found : Block × DispatchHandle} (hfound : found ∈ s.submissions) {state : BlockState}
    (told : List (Nat × BlockState)) :
    ((s.queue.nextId, state) :: told).lookup found.2.id = told.lookup found.2.id := by
  have hne : (found.2.id == s.queue.nextId) = false :=
    beq_eq_false_iff_ne.mpr (h.fresh found hfound).ne
  rw [List.lookup_cons, hne]

theorem Tracked.step {reports : List (Nat × BlockState)} (h : Tracked s reports)
    (move : Move Channel.Act) :
    Tracked (s.step Channel.dispatcher Channel.Act.perform move) (s.newReports move ++ reports) := by
  cases move with
  | act act =>
    cases act with
    | report handle state =>
      refine ⟨h.fresh, fun found hfound => ?_⟩
      simp only [Session.step, Channel.Act.perform, Channel.report, newReports, List.singleton_append,
        List.lookup_cons, h.told found hfound]
    | take =>
      obtain ⟨hid, hstates⟩ := s.queue.perform_take
      refine ⟨fun found hfound => ?_, fun found hfound => ?_⟩
      · exact hid ▸ h.fresh found hfound
      · exact (congrArg _ hstates).trans (h.told found hfound)
    | abandon => exact ⟨h.fresh, h.told⟩
  | call =>
    have hcalled := called Channel.dispatcher s
    rw [Session.step, newReports]
    generalize s.call Channel.dispatcher = result at hcalled ⊢
    cases hcalled with
    | finished => exact h
    | refused => exact ⟨h.fresh, h.told⟩
    | @lost _ _ _ _ queue _ _ _ hsubmit =>
      -- the channel has spent a handle that nobody gets; what it says of the others is as before
      obtain ⟨hid, hstates, -⟩ := Channel.submit_spec hsubmit
      constructor
      · intro found hfound
        rw [submissions_append_error (s := s) rfl] at hfound
        change found.2.id < queue.nextId
        rw [hid]
        exact (h.fresh found hfound).trans (Nat.lt_succ_self _)
      · intro found hfound
        rw [submissions_append_error (s := s) rfl] at hfound
        change queue.states.lookup found.2.id = reports.lookup found.2.id
        rw [hstates, h.lookup_cons hfound, h.told found hfound]
    | @submitted _ _ request handle queue _ _ _ hsubmit =>
      obtain ⟨hid, hstates, hhandle, -⟩ := Channel.submit_spec hsubmit
      have hissued : handle.id = s.queue.nextId := hhandle handle rfl
      constructor
      · intro found hfound
        rw [submissions_append_ok (s := s) rfl, List.mem_append, List.mem_singleton] at hfound
        change found.2.id < queue.nextId
        rw [hid]
        rcases hfound with hfound | rfl
        · exact (h.fresh found hfound).trans (Nat.lt_succ_self _)
        · exact hissued ▸ Nat.lt_succ_self _
      · intro found hfound
        rw [submissions_append_ok (s := s) rfl, List.mem_append, List.mem_singleton] at hfound
        change queue.states.lookup found.2.id =
          ([(handle.id, BlockState.queued)] ++ reports).lookup found.2.id
        rw [hstates, hissued, List.singleton_append]
        rcases hfound with hfound | rfl
        · rw [h.lookup_cons hfound, h.lookup_cons hfound, h.told found hfound]
        · simp [hissued]

theorem Tracked.later (h : Tracked s []) (moves : List (Move Channel.Act)) :
    Tracked (s.later moves) (s.reports moves) := by
  induction moves with
  | nil => exact h
  | cons move earlier ih => exact ih.step move

/-- A refusal leaves all as it was, but for the place where the next block waits. -/
theorem Scheduled.unchanged_of_refused (hwell : p.WellFormed) {dispatched : UInt64}
    (h : Scheduled p dispatched s) {i : BlockId} {state : BlockState} {scheduler : Scheduler}
    {channel : Channel} {host : Host}
    (hrefused : s.scheduler.advance Channel.dispatcher s.queue s.host =
      (.error (.notSucceeded i state), scheduler, channel, host)) :
    scheduler.handles = s.scheduler.handles ∧ scheduler.candidate? = s.scheduler.candidate? ∧
      channel = s.queue ∧ host = s.host := by
  have hcalled := called Channel.dispatcher s
  rw [advance_eq] at hrefused
  generalize s.call Channel.dispatcher = result at hcalled hrefused
  cases hcalled with
  | finished | submitted => cases hrefused
  | lost _ _ _ hsubmit =>
    obtain ⟨-, -, -, hclosed⟩ := Channel.submit_spec hsubmit
    cases hclosed _ rfl
    cases hrefused
  | refused hnext =>
    cases hrefused
    obtain ⟨-, -, hhandles, -⟩ := h.of_candidate? hwell hnext
    exact ⟨hhandles, (candidate?_pending hnext).trans hnext.symm, rfl, rfl⟩

theorem Tracked.lookup_of_hasSucceeded {reports : List (Nat × BlockState)} (h : Tracked s reports)
    {found : Block × DispatchHandle} (hfound : found ∈ s.submissions)
    (hstatus : (Channel.dispatcher.status found.2 s.queue).hasSucceeded = true) :
    ∃ rows, reports.lookup found.2.id = some (.succeeded rows) := by
  change ((s.queue.states.lookup found.2.id).getD .unknown).hasSucceeded = true at hstatus
  rw [h.told found hfound] at hstatus
  cases hlookup : reports.lookup found.2.id with
  | none => simp [hlookup, BlockState.hasSucceeded] at hstatus
  | some state => cases state <;> simp_all [BlockState.hasSucceeded]

/-- However calls for the next block and reports come, the blocks of an accepted plan are handed
over in the order of its cursor and each once.  When one is handed over, the last report on each of
its inputs is that it has succeeded.  A refusal leaves all as it was, and the submissions are
counted.  If none fails, the calls come to an end just behind the terminal block. -/
theorem scheduled_of_ofBlocks {query : QueryId} {blocks : List Block} {terminal : BlockId}
    (h : MasterPlan.ofBlocks query blocks terminal = .ok p) (host : Host) :
    (∀ (channel : Channel) (moves : List (Move Channel.Act)) (s : Session Channel),
      (start p channel host).later moves = s →
      s.handed <+: p.order ∧ (s.handed.map Block.id).Nodup ∧
      (s.host.counters.get .blocksDispatched - host.counters.get .blocksDispatched).toNat =
        s.submissions.length ∧
      (∀ request answer,
        (s.call Channel.dispatcher).2.requests = s.requests ++ [(request, answer)] →
        ∀ i ∈ request.block.inputs, ∃ found ∈ s.submissions, found.1.id = i ∧
          ∃ rows, ((start p channel host).reports moves).lookup found.2.id =
            some (.succeeded rows)) ∧
      ∀ i state scheduler channel' host',
        s.scheduler.advance Channel.dispatcher s.queue s.host =
          (.error (.notSucceeded i state), scheduler, channel', host') →
        scheduler.handles = s.scheduler.handles ∧
          scheduler.candidate? = s.scheduler.candidate? ∧ channel' = s.queue ∧ host' = s.host) ∧
    ∀ {Q A : Type} (dispatcher : Dispatcher Q) (perform : A → Q → Q) (queue : Q)
      (moves : List (Move A)) (s : Session Q),
      (∀ request queue, ∃ handle, (dispatcher.submit request queue).1 = .ok handle) →
      (start p queue host).after dispatcher perform moves = s →
      (s.scheduler.advance dispatcher s.queue s.host).1 = .ok none →
      s.submissions.map Prod.fst = p.order ∧ p.order.Perm blocks ∧
        ∃ before t, p.order = before ++ [t] ∧ t.id = terminal := by
  obtain ⟨hwell, -, rfl, hperm⟩ := MasterPlan.wellFormed_of_ofBlocks h
  constructor
  · rintro channel moves s rfl
    have hscheduled : Scheduled p (host.counters.get .blocksDispatched)
        ((start p channel host).later moves) :=
      (scheduled_start p channel host).after hwell Channel.dispatcher Channel.Act.perform moves
    have htracked : Tracked (start p channel host) [] := ⟨nofun, nofun⟩
    refine ⟨hscheduled.prefix_order, ?_, hscheduled.toNat_counted hwell, ?_, ?_⟩
    · exact (hscheduled.prefix_order.sublist.map Block.id).nodup hwell.nodup_order
    · intro request answer hrequest i hi
      obtain ⟨found, hfound, hid, hstatus⟩ :=
        hscheduled.inputs_succeeded_of_request hwell hrequest i hi
      exact ⟨found, hfound, hid, (htracked.later moves).lookup_of_hasSucceeded hfound hstatus⟩
    · intro i state scheduler channel' host' hrefused
      exact hscheduled.unchanged_of_refused hwell hrefused
  · rintro Q A dispatcher perform queue moves s hnever rfl hdone
    have hscheduled := (scheduled_start p queue host).after hwell dispatcher perform moves
    have htaken := map_submissions_after hnever perform (s := start p queue host) rfl moves
    refine ⟨htaken.trans (hscheduled.handed_eq_order hwell ?_), hwell.order_spec.1.trans hperm,
      hwell.exists_order_eq⟩
    exact candidate?_eq_none hdone

/-! A block is reported as failed after one of its two readers was handed over, so that the other
one has to wait; a dispatcher that runs everything at once is through after four calls. -/

namespace Setback

open MasterPlan

def host : Host := ⟨.empty, .start .error ⟨"", ""⟩, .zero, 0⟩

def leaf : DispatchHandle := ⟨1, Diamond.id 1⟩

def failure : BlockState := .failed "disk full" false

def moves : List (Move Channel.Act) :=
  [.call, .act (.report leaf failure), .call, .act .take, .act (.report leaf (.succeeded 3)),
    .call, .call]

def prompt : Dispatcher ℕ where
  submit request n := (.ok ⟨n, request.block.id⟩, n + 1)
  status _ _ := .succeeded 0

def calls : List (Move Empty) := [.call, .call, .call, .call]

def waiting (p : MasterPlan) : Session Channel := (start p .start host).later moves

def finished (p : MasterPlan) : Session ℕ := (start p 0 host).after prompt Empty.elim calls

/-- What the next call comes to. -/
def next {Q : Type} (dispatcher : Dispatcher Q) (s : Session Q) :
    Except DispatchError (Option DispatchHandle) :=
  (s.scheduler.advance dispatcher s.queue s.host).1

theorem exists_next : ∃ p, ofBlocks Diamond.query Diamond.blocks (Diamond.id 4) = .ok p ∧
    (waiting p).submissions.map (fun found => found.1.id) = [Diamond.id 1, Diamond.id 2] ∧
    next Channel.dispatcher (waiting p) = .error (.notSucceeded (Diamond.id 1) failure) ∧
    next prompt (finished p) = .ok none := by
  have hrun : (ofBlocks Diamond.query Diamond.blocks (Diamond.id 4)).toOption.map (fun p =>
      ((waiting p).submissions.map (fun found => found.1.id),
        next Channel.dispatcher (waiting p), next prompt (finished p))) =
      some ([Diamond.id 1, Diamond.id 2], .error (.notSucceeded (Diamond.id 1) failure),
        .ok none) := by decide +kernel
  obtain ⟨p, hp, heq⟩ := Option.map_eq_some_iff.mp hrun
  simp only [Prod.mk.injEq] at heq
  exact ⟨p, Except.toOption_eq_some.mp hp, heq⟩

end Setback

theorem scheduled_of_setback :
    ∃ p, MasterPlan.ofBlocks MasterPlan.Diamond.query MasterPlan.Diamond.blocks
        (MasterPlan.Diamond.id 4) = .ok p ∧
      (Setback.waiting p).handed <+: p.order ∧
      ((Setback.waiting p).host.counters.get .blocksDispatched).toNat = 2 ∧
      (∃ scheduler, (Setback.waiting p).scheduler.advance Channel.dispatcher
          (Setback.waiting p).queue (Setback.waiting p).host =
        (.error (.notSucceeded (MasterPlan.Diamond.id 1) Setback.failure), scheduler,
          (Setback.waiting p).queue, (Setback.waiting p).host)) ∧
      (Setback.finished p).submissions.map Prod.fst = p.order := by
  obtain ⟨p, hp, hsubmitted, hrefused, hdone⟩ := Setback.exists_next
  obtain ⟨hsafe, hend⟩ := scheduled_of_ofBlocks hp Setback.host
  obtain ⟨hbegin, -, hcount, -, hunchanged⟩ := hsafe .start Setback.moves (Setback.waiting p) rfl
  have hnever : ∀ request queue, ∃ handle,
      (Setback.prompt.submit request queue).1 = .ok handle := fun _ _ => ⟨_, rfl⟩
  obtain ⟨hall, -⟩ :=
    hend Setback.prompt Empty.elim 0 Setback.calls (Setback.finished p) hnever rfl hdone
  refine ⟨p, hp, hbegin, ?_, ?_, hall⟩
  · have hlength : (Setback.waiting p).submissions.length = 2 := by
      simpa using congrArg List.length hsubmitted
    have hzero : Setback.host.counters.get .blocksDispatched = 0 := rfl
    rw [hzero, UInt64.sub_zero, hlength] at hcount
    exact hcount
  · rcases hanswer : (Setback.waiting p).scheduler.advance Channel.dispatcher
      (Setback.waiting p).queue (Setback.waiting p).host with ⟨answer, scheduler, channel, host⟩
    obtain rfl : answer = _ := (congrArg Prod.fst hanswer).symm.trans hrefused
    obtain ⟨-, -, rfl, rfl⟩ := hunchanged _ _ _ _ _ hanswer
    exact ⟨scheduler, rfl⟩

end Session

end BlockQuery
