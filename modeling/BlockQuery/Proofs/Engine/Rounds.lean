import BlockQuery.Engine.Query
import BlockQuery.Proofs.Engine.Frame
import BlockQuery.Proofs.Engine.Run
import BlockQuery.Proofs.Engine.Scheduling
import BlockQuery.Proofs.Engine.Settlement

/-!
# Blocks in turn

A query that runs its own blocks submits one when the queue is empty and the inputs of the block
have succeeded, and runs it before the next one.  So it never meets a closed queue or an input that
is missing, and it ends with the output of the terminal block, or with the first block that fails.
-/

namespace BlockQuery

/-! ## Counted blocks -/

/-- Whether so many blocks have been dispatched and completed meanwhile. -/
def Counters.Advanced (before now : Counters) (dispatched completed : ℕ) : Prop :=
  now.get .blocksDispatched = before.get .blocksDispatched + UInt64.ofNat dispatched ∧
    now.get .blocksCompleted = before.get .blocksCompleted + UInt64.ofNat completed

namespace Counters.Advanced

variable {before now next : Counters} {m n : ℕ}

theorem refl (before : Counters) : Advanced before before 0 0 :=
  ⟨(UInt64.add_zero _).symm, (UInt64.add_zero _).symm⟩

theorem raised {counter : Counter} (h : Advanced before now m n)
    (hraised : Raised counter now next) :
    Advanced before next (m + if .blocksDispatched = counter then 1 else 0)
      (n + if .blocksCompleted = counter then 1 else 0) := by
  constructor
  · rw [hraised _ rfl, h.1, UInt64.ofNat_add, UInt64.add_assoc]
    split <;> rfl
  · rw [hraised _ rfl, h.2, UInt64.ofNat_add, UInt64.add_assoc]
    split <;> rfl

theorem dispatch (h : Advanced before now m n) :
    Advanced before (now.add .blocksDispatched 1) (m + 1) n := by
  have hraised : Raised .blocksDispatched now (now.add .blocksDispatched 1) :=
    raised_add fun _ _ => rfl
  simpa using h.raised hraised

theorem complete (h : Advanced before now m n) (hraised : Raised .blocksCompleted now next) :
    Advanced before next m (n + 1) := by
  simpa using h.raised hraised

theorem fail (h : Advanced before now m n) (hraised : Raised .blocksFailed now next) :
    Advanced before next m n := by
  simpa using h.raised hraised

theorem toNat (h : Advanced before now m n) (hm : m ≤ 2 ^ 32) (hn : n ≤ 2 ^ 32) :
    (now.get .blocksDispatched - before.get .blocksDispatched).toNat = m ∧
      (now.get .blocksCompleted - before.get .blocksCompleted).toNat = n := by
  rw [h.1, h.2, UInt64.add_comm, UInt64.add_sub_cancel, UInt64.add_comm, UInt64.add_sub_cancel]
  exact ⟨UInt64.toNat_ofNat_of_lt (hm.trans_lt (by decide)),
    UInt64.toNat_ofNat_of_lt (hn.trans_lt (by decide))⟩

end Counters.Advanced

/-! ## What a query does -/

/-- Whether an error tells that a block could not be run. -/
inductive EngineError.FailedAt (id : BlockId) : EngineError → Prop
  | execution (e : ExecError) : FailedAt id (.execution id e)
  | io (e : IoError) : FailedAt id (.io e)

theorem Scheduler.handle?_cons_of_ne {plan : MasterPlan} {cursor : BlockCursor}
    {handles : List (BlockId × DispatchHandle)} {a b : BlockId} {handle : DispatchHandle}
    (hne : a ≠ b) : (Scheduler.mk plan cursor none ((b, handle) :: handles)).handle? a =
      (Scheduler.mk plan cursor none handles).handle? a := by
  have hbeq : (a == b) = false := by simpa using hne
  simp [handle?, List.lookup_cons, hbeq]

namespace QueryRun

/-- Whether a query, while nothing waits, submits a block all of whose inputs have succeeded, and
then runs just this block. -/
structure Round (cancelAt : Option ℕ) (b : Block) (r : QueryRun)
    (result : Except EngineError (Option BlockOutput)) (after : QueryRun) : Prop where
  idle : r.channel.waiting = []
  inputs : ∀ i ∈ b.inputs, ∃ handle, r.scheduler.handle? i = some handle ∧
    (r.channel.status handle).hasSucceeded = true
  runs : ∃ handle submitted, r.advance = (.ok (some handle), submitted) ∧
    submitted.channel.waiting = [⟨handle, ⟨b, b.id == r.scheduler.plan.terminal⟩⟩] ∧
    { submitted with worker := { submitted.worker with cancelAt := cancelAt } }.step =
      (result, after)

/-- How a query comes to an end by running some blocks in turn: when it has no more to submit, or
when a block has failed. -/
inductive InTurn (signal : ℕ → Option ℕ) :
    ℕ → QueryRun → List Block → Except EngineError Unit → QueryRun → Prop
  | finished {n : ℕ} {r : QueryRun} (advance : r.advance.1 = .ok none) :
    InTurn signal n r [] (.ok ()) r
  | failed {n : ℕ} {r after : QueryRun} {b : Block} {e : EngineError}
    (round : r.Round (signal (n + 1)) b (.error e) after) :
    InTurn signal (n + 1) r [b] (.error e) after
  | ran {n : ℕ} {r after last : QueryRun} {b : Block} {bs : List Block} {o : BlockOutput}
    {result : Except EngineError Unit}
    (round : r.Round (signal (n + 1)) b (.ok (some o)) after)
    (rest : InTurn signal n after bs result last) :
    InTurn signal (n + 1) r (b :: bs) result last

/-! ## Between rounds -/

variable {p : MasterPlan} {dir : String} {before : Counters} {k : ℕ} {r : QueryRun}

/-- Whether the outputs of some blocks are where the plan has them. -/
def Keeps (r : QueryRun) (dir : String) (done : List Block) : Prop :=
  ∀ b ∈ done, ∃ o, r.worker.output? b.id.seq = some o ∧
    o.fragment.path = Path.join dir (Worker.outputName b.id.seq)

/-- Whether handles of some blocks were given out, all before one of them, and tell that the blocks
have succeeded. -/
def Succeeded (r : QueryRun) (id : ℕ) (done : List Block) : Prop :=
  ∀ b ∈ done, ∃ handle, r.scheduler.handle? b.id = some handle ∧ handle.id < id ∧
    (r.channel.status handle).hasSucceeded = true

/-- A query that has run the first blocks of its order. -/
structure Underway (p : MasterPlan) (dir : String) (before : Counters) (k : ℕ) (r : QueryRun) :
    Prop where
  scheduler : ∃ handles, r.scheduler = ⟨p, (p.cursor.take k).2, none, handles⟩
  channel : ∃ states, r.channel = ⟨r.channel.nextId, true, [], states⟩
  succeeded : r.Succeeded r.channel.nextId (p.order.take k)
  workDir : r.worker.workDir = dir
  keeps : r.Keeps dir (p.order.take k)
  counts : before.Advanced r.host.counters k k

/-- A query that has submitted the next block of its order. -/
structure Submitted (p : MasterPlan) (dir : String) (before : Counters) (k : ℕ) (b : Block)
    (handle : DispatchHandle) (r : QueryRun) : Prop where
  order : p.order.take (k + 1) = p.order.take k ++ [b]
  scheduler : ∃ handles, r.scheduler = ⟨p, (p.cursor.take (k + 1)).2, none, handles⟩
  channel : ∃ states, r.channel =
    ⟨handle.id + 1, true, [⟨handle, ⟨b, b.id == p.terminal⟩⟩], states⟩
  newest : r.scheduler.handle? b.id = some handle
  succeeded : r.Succeeded handle.id (p.order.take k)
  workDir : r.worker.workDir = dir
  keeps : r.Keeps dir (p.order.take k)
  counts : before.Advanced r.host.counters (k + 1) k

theorem underway_start (p : MasterPlan) (ctx : TaskContext) (dir : String) (host : Host) :
    Underway p dir host.counters 0 (.start p ctx dir host) where
  scheduler := ⟨[], rfl⟩
  channel := ⟨[], rfl⟩
  succeeded _ hb := (List.not_mem_nil hb).elim
  workDir := rfl
  keeps _ hb := (List.not_mem_nil hb).elim
  counts := .refl _

/-- All inputs of the next block have run. -/
theorem Underway.inputs (hwell : p.WellFormed) (h : Underway p dir before k r) {b : Block}
    (horder : p.order.take (k + 1) = p.order.take k ++ [b]) :
    ∀ i ∈ b.inputs, ∃ handle, r.scheduler.handle? i = some handle ∧
      (r.channel.status handle).hasSucceeded = true := by
  have hsplit : p.order = p.order.take k ++ b :: p.order.drop (k + 1) := by
    rw [← List.singleton_append, ← List.append_assoc, ← horder, List.take_append_drop]
  intro i hi
  obtain ⟨c, hc, rfl⟩ := List.mem_map.mp (hwell.inputs_before hsplit i hi)
  obtain ⟨handle, hhandle, -, hstatus⟩ := h.succeeded c hc
  exact ⟨handle, hhandle, hstatus⟩

/-- The next block has a number that none had before. -/
theorem seq_ne_of_take (hwell : p.WellFormed) {b : Block}
    (horder : p.order.take (k + 1) = p.order.take k ++ [b]) :
    ∀ c ∈ p.order.take k, b.id.seq ≠ c.id.seq := by
  have hmem : ∀ c ∈ p.order.take (k + 1), c ∈ p.blocks := fun c hc =>
    hwell.order_spec.1.mem_iff.mp (List.mem_of_mem_take hc)
  have hnodup : ((p.order.take k ++ [b]).map Block.id).Nodup := by
    rw [← horder, List.map_take]
    exact hwell.nodup_order.take
  rw [horder] at hmem
  intro c hc hseq
  obtain rfl := hwell.eq_of_seq (hmem b (by simp)) (hmem c (List.mem_append_left _ hc)) hseq
  rw [List.map_append] at hnodup
  exact List.disjoint_of_nodup_append hnodup (List.mem_map_of_mem hc) List.mem_cons_self

theorem Underway.advance (hwell : p.WellFormed) (h : Underway p dir before k r) :
    (p.order.take k = p.order ∧ r.advance = (.ok none, r)) ∨
      ∃ b handle submitted, r.advance = (.ok (some handle), submitted) ∧
        Submitted p dir before k b handle submitted := by
  rcases hwell.next?_take k with ⟨hnone, hall⟩ | ⟨b, hblock, hnext, horder⟩
  · have hcandidate : r.scheduler.candidate? = none := by
      obtain ⟨handles, hscheduler⟩ := h.scheduler
      rw [hscheduler, Scheduler.candidate?, hnone]
      rfl
    refine .inl ⟨hall, ?_⟩
    rw [QueryRun.advance, Scheduler.advance, hcandidate]
  · have hinputs := h.inputs hwell horder
    obtain ⟨scheduler, worker, channel, host⟩ := r
    obtain ⟨⟨handles, rfl⟩, ⟨states, hchannel⟩, hsucceeded, hdir, hkeeps, hcounts⟩ := h
    obtain ⟨nextId, rfl⟩ : ∃ nextId, channel = ⟨nextId, true, [], states⟩ := ⟨_, hchannel⟩
    have hready : Scheduler.awaitInputs ⟨p, (p.cursor.take (k + 1)).2, none, handles⟩
        Channel.dispatcher ⟨nextId, true, [], states⟩ b.inputs = .ok () :=
      Scheduler.awaitInputs_eq_ok_iff.mpr hinputs
    refine .inr ⟨b, ⟨nextId, b.id⟩, ⟨⟨p, (p.cursor.take (k + 1)).2, none,
      (b.id, ⟨nextId, b.id⟩) :: handles⟩, worker,
      ⟨nextId + 1, true, [⟨⟨nextId, b.id⟩, ⟨b, b.id == p.terminal⟩⟩], (nextId, .queued) :: states⟩,
      (host.count .blocksDispatched 1).report .blockDispatched
        (Scheduler.dispatchFields b ⟨nextId, b.id⟩)⟩, ?_, ?_⟩
    · simp only [QueryRun.advance, Scheduler.advance, Scheduler.candidate?, hnext, hblock,
        Option.bind_eq_bind, Option.bind_some, Option.pure_def, hready]
      rfl
    · refine ⟨horder, ⟨_, rfl⟩, ⟨_, rfl⟩, List.lookup_cons_self, ?_, hdir, hkeeps, ?_⟩
      · intro c hc
        obtain ⟨other, hother, hlt, hstatus⟩ := hsucceeded c hc
        have hne : c.id ≠ b.id := fun heq =>
          seq_ne_of_take hwell horder c hc (congrArg BlockId.seq heq.symm)
        have hkept := Channel.status_report ⟨nextId, true, [], states⟩ ⟨nextId, b.id⟩ other .queued
        rw [if_neg hlt.ne] at hkept
        refine ⟨other, ?_, hlt, (congrArg BlockState.hasSucceeded hkept).trans hstatus⟩
        exact (Scheduler.handle?_cons_of_ne hne).trans hother
      · exact hcounts.dispatch

theorem Submitted.step (hwell : p.WellFormed) {b : Block} {handle : DispatchHandle}
    (h : Submitted p dir before k b handle r) (cancelAt : Option ℕ) :
    (∃ e after, { r with worker := { r.worker with cancelAt := cancelAt } }.step =
      (.error e, after) ∧ e.FailedAt b.id ∧ before.Advanced after.host.counters (k + 1) k) ∨
    ∃ o after, { r with worker := { r.worker with cancelAt := cancelAt } }.step =
      (.ok (some o), after) ∧ Underway p dir before (k + 1) after := by
  obtain ⟨scheduler, worker, channel, host⟩ := r
  obtain ⟨horder, ⟨handles, rfl⟩, ⟨states, rfl⟩, hnewest, hsucceeded, hdir, hkeeps, hcounts⟩ := h
  have hexecuted := Worker.executed { worker with cancelAt := cancelAt }
    ⟨handle, ⟨b, b.id == p.terminal⟩⟩ ⟨handle.id + 1, true, [], states⟩ host
  have hwaiting : (Channel.mk (handle.id + 1) true [⟨handle, ⟨b, b.id == p.terminal⟩⟩]
    states).waiting = [⟨handle, ⟨b, b.id == p.terminal⟩⟩] := rfl
  rw [QueryRun.step]
  simp only [Worker.step_cons hwaiting]
  generalize Worker.execute _ _ _ _ = result at hexecuted
  cases hexecuted with
  | stranded made => exact .inl ⟨_, _, rfl, .io _, hcounts⟩
  | failed made counted => exact .inl ⟨_, _, rfl, .execution _, hcounts.fail counted⟩
  | @succeeded o after made seq path counted =>
    -- Outputs are found by numbers and handles by ids, so those of earlier blocks stay.
    have hne := seq_ne_of_take hwell horder
    refine .inr ⟨_, _, rfl, ⟨_, rfl⟩, ⟨_, rfl⟩, ?_, hdir, ?_, hcounts.complete counted⟩
    · rw [horder]
      intro c hc
      rcases List.mem_append.mp hc with hc | hc
      · obtain ⟨other, hother, hlt, hstatus⟩ := hsucceeded c hc
        refine ⟨other, hother, hlt.trans (Nat.lt_succ_self _), ?_⟩
        dsimp only
        rw [Worker.status_report_twice, if_neg hlt.ne]
        exact hstatus
      · obtain rfl := List.mem_singleton.mp hc
        refine ⟨handle, hnewest, Nat.lt_succ_self _, ?_⟩
        dsimp only
        rw [Worker.status_report_twice, if_pos rfl]
        rfl
    · rw [horder]
      intro c hc
      dsimp only
      rw [Worker.output?_register, seq]
      rcases List.mem_append.mp hc with hc | hc
      · rw [if_neg (hne c hc)]
        exact hkeeps c hc
      · obtain rfl := List.mem_singleton.mp hc
        refine ⟨o, if_pos rfl, path.trans ?_⟩
        rw [← hdir]
        rfl

/-- A query that is on its way is through with the order, or makes one more round. -/
theorem Underway.round (hwell : p.WellFormed) (h : Underway p dir before k r)
    (cancelAt : Option ℕ) :
    (p.order.take k = p.order ∧ r.advance.1 = .ok none) ∨
      ∃ b result after, p.order.take (k + 1) = p.order.take k ++ [b] ∧
        r.Round cancelAt b result after ∧
        ((∃ e, result = .error e ∧ e.FailedAt b.id ∧
            before.Advanced after.host.counters (k + 1) k) ∨
          ∃ o, result = .ok (some o) ∧ Underway p dir before (k + 1) after) := by
  rcases h.advance hwell with ⟨hall, hadvance⟩ | ⟨b, handle, submitted, hadvance, hsubmitted⟩
  · exact .inl ⟨hall, congrArg Prod.fst hadvance⟩
  · have hidle : r.channel.waiting = [] := by
      obtain ⟨states, hchannel⟩ := h.channel
      exact congrArg Channel.waiting hchannel
    have hwaiting : submitted.channel.waiting =
        [⟨handle, ⟨b, b.id == r.scheduler.plan.terminal⟩⟩] := by
      obtain ⟨handles, hscheduler⟩ := h.scheduler
      obtain ⟨states, hchannel⟩ := hsubmitted.channel
      rw [hscheduler]
      exact congrArg Channel.waiting hchannel
    have hround : ∀ {result after},
        { submitted with worker := { submitted.worker with cancelAt := cancelAt } }.step =
          (result, after) → r.Round cancelAt b result after := fun hstep =>
      ⟨hidle, h.inputs hwell hsubmitted.order, handle, submitted, hadvance, hwaiting, hstep⟩
    rcases hsubmitted.step hwell cancelAt with ⟨e, after, hstep, hfailed⟩ | ⟨o, after, hstep, hnext⟩
    · exact .inr ⟨b, _, after, hsubmitted.order, hround hstep, .inl ⟨e, rfl, hfailed⟩⟩
    · exact .inr ⟨b, _, after, hsubmitted.order, hround hstep, .inr ⟨o, rfl, hnext⟩⟩

/-! ## To the end -/

theorem runToEnd_of_round {signal : ℕ → Option ℕ} {n : ℕ} {b : Block}
    {result : Except EngineError (Option BlockOutput)} {after : QueryRun}
    (h : r.Round (signal (n + 1)) b result after) : r.runToEnd signal (n + 1) =
      match result with
      | .error e => (.error e, after)
      | .ok _ => after.runToEnd signal n := by
  obtain ⟨handle, submitted, hadvance, -, hstep⟩ := h.runs
  rw [QueryRun.runToEnd, hadvance]
  simp only [hstep]
  cases result <;> rfl

/-- A query that is on its way comes to its end by running the blocks that are left, or some of
them, the last of which fails. -/
theorem Underway.runToEnd (hwell : p.WellFormed) (signal : ℕ → Option ℕ) (n : ℕ)
    (h : Underway p dir before k r) (hleft : k + n = p.order.length) :
    ∃ ran result last, r.runToEnd signal n = (result, last) ∧
      InTurn signal n r ran result last ∧ p.order.take k ++ ran <+: p.order ∧
      (result = .ok () → p.order.take k ++ ran = p.order ∧
        Underway p dir before p.order.length last) ∧
      ∀ e, result = .error e → ∃ done b, ran = done ++ [b] ∧ e.FailedAt b.id ∧
        before.Advanced last.host.counters (k + ran.length) (k + done.length) := by
  -- By induction on the number of blocks that are left; what is `Underway` makes one more round.
  induction n generalizing k r with
  | zero =>
    obtain rfl : k = p.order.length := hleft
    rcases h.round hwell none with ⟨hall, hadvance⟩ | ⟨b, -, -, horder, -⟩
    · refine ⟨[], .ok (), r, rfl, .finished hadvance, by simp, fun _ => ⟨by simp, h⟩, ?_⟩
      rintro _ ⟨⟩
    · simpa using congrArg List.length horder
  | succ n ih =>
    rcases h.round hwell (signal (n + 1)) with
      ⟨hall, -⟩ | ⟨b, result, after, horder, hround, hresult⟩
    · have hlength := congrArg List.length hall
      rw [List.length_take] at hlength
      omega
    · rw [runToEnd_of_round hround]
      rcases hresult with ⟨e, rfl, hfailed, hcounts⟩ | ⟨o, rfl, hnext⟩
      · refine ⟨[b], .error e, after, rfl, .failed hround, ?_, ?_, ?_⟩
        · rw [← horder]
          exact List.take_prefix _ _
        · rintro ⟨⟩
        · rintro _ ⟨⟩
          exact ⟨[], b, rfl, hfailed, hcounts⟩
      · obtain ⟨ran, result, last, hrun, hturn, hprefix, hok, herror⟩ := ih hnext (by omega)
        rw [horder, List.append_assoc, List.singleton_append] at hprefix hok
        refine ⟨b :: ran, result, last, hrun, .ran hround hturn, hprefix, hok, fun e he => ?_⟩
        obtain ⟨done, c, rfl, hfailed, hcounts⟩ := herror e he
        refine ⟨b :: done, c, rfl, hfailed, ?_⟩
        simpa [Nat.add_assoc, Nat.add_comm 1] using hcounts

/-- The answer of a query that has run all its blocks is in the file of the terminal one. -/
theorem Underway.answer_eq (hwell : p.WellFormed) (h : Underway p dir before p.order.length r) :
    r.answer = (r.host.disk.readRows
      (Path.join dir (Worker.outputName p.terminal.seq))).mapError .storage := by
  obtain ⟨front, t, horder, hterminal⟩ := hwell.exists_order_eq
  have ht : t ∈ p.order.take p.order.length := by
    rw [List.take_length, horder]
    exact List.mem_append_right _ List.mem_cons_self
  obtain ⟨o, ho, hpath⟩ := h.keeps t ht
  obtain ⟨handles, hscheduler⟩ := h.scheduler
  rw [hterminal] at ho hpath
  rw [answer, hscheduler]
  simp only [output?, ho, hpath]
  cases r.host.disk.readRows (Path.join dir (Worker.outputName p.terminal.seq)) <;> rfl

end QueryRun

namespace Engine

/-- Tables and indexes are not found by way of a dispatcher. -/
theorem bindTables_ne_dispatch (catalog : Catalog) (tables : List String) (ctx : TaskContext)
    (host : Host) (e : DispatchError) :
    (bindTables catalog tables ctx host).1 ≠ .error (.dispatch e) := by
  induction tables generalizing ctx host with
  | nil => simp [bindTables]
  | cons table tables ih =>
    rw [bindTables]
    split
    · simp
    next t ht =>
      dsimp only
      split
      next => simp
      next bound after _ => exact ih bound after

theorem answerIn_of_ran {catalog : Catalog} {p : MasterPlan} {workDir : String}
    {signal : ℕ → Option ℕ} {host bound : Host} {ctx : TaskContext} {last : QueryRun}
    {result : Except EngineError Unit}
    (htables : bindTables catalog (scannedTables p) .empty host = (.ok ctx, bound))
    (hrun : QueryRun.runToEnd signal p.blocks.length (.start p ctx workDir bound) =
      (result, last)) :
    answerIn catalog p workDir signal host = (result.bind fun _ => last.answer, last.host) := by
  simp only [answerIn, htables, hrun]
  cases result <;> rfl

/-- The blocks of a plan are submitted and run one at a time in the order of the cursor, each when
its inputs have succeeded, up to the first one that fails, whose error is the answer.  If none
fails, all have been run, and the answer is read from the file of the terminal block.  The
dispatcher never refuses anything. -/
theorem answerIn_inTurn {query : QueryId} {blocks : List Block} {terminal : BlockId}
    {p : MasterPlan} (h : MasterPlan.ofBlocks query blocks terminal = .ok p) (catalog : Catalog)
    (workDir : String) (signal : ℕ → Option ℕ) (host : Host) :
    (∀ e, (answerIn catalog p workDir signal host).1 ≠ .error (.dispatch e)) ∧
    ∀ ctx bound, bindTables catalog (scannedTables p) .empty host = (.ok ctx, bound) →
      p.order.Perm blocks ∧ (p.order.map Block.id).Nodup ∧
      ∃ ran result last,
        QueryRun.InTurn signal p.blocks.length (.start p ctx workDir bound) ran result last ∧
        ran <+: p.order ∧
        (last.host.counters.get .blocksDispatched - host.counters.get .blocksDispatched).toNat =
          ran.length ∧
        (result = .ok () → ran = p.order ∧
          (last.host.counters.get .blocksCompleted - host.counters.get .blocksCompleted).toNat =
            p.blocks.length ∧
          answerIn catalog p workDir signal host = ((last.host.disk.readRows
            (Path.join workDir (Worker.outputName p.terminal.seq))).mapError .storage,
            last.host)) ∧
        ∀ e, result = .error e →
          answerIn catalog p workDir signal host = (.error e, last.host) ∧
          ∃ done b, ran = done ++ [b] ∧ e.FailedAt b.id ∧
            (last.host.counters.get .blocksCompleted -
              host.counters.get .blocksCompleted).toNat = done.length := by
  obtain ⟨hwell, -, -, hperm⟩ := MasterPlan.wellFormed_of_ofBlocks h
  have hlength : p.order.length = p.blocks.length := hwell.order_spec.1.length_eq
  have hsmall : p.order.length ≤ 2 ^ 32 := hlength ▸ hwell.length_le
  obtain ⟨log, hlog⟩ := exists_log_bindTables catalog (scannedTables p) .empty host
  have hbind := bindTables_ne_dispatch catalog (scannedTables p) .empty host
  rcases htables : bindTables catalog (scannedTables p) .empty host with ⟨e | ctx, bound⟩
  · rw [htables] at hbind
    refine ⟨fun d => ?_, ?_⟩
    · simp only [answerIn, htables]
      exact fun heq => hbind d (congrArg Except.error (Except.error.inj heq))
    · rintro _ _ ⟨⟩
  · have hcounters : bound.counters = host.counters := by
      rw [htables] at hlog
      obtain rfl : bound = { host with log := log } := hlog
      rfl
    obtain ⟨ran, result, last, hrun, hturn, hprefix, hok, herror⟩ :=
      (QueryRun.underway_start p ctx workDir bound).runToEnd hwell signal p.blocks.length
        ((Nat.zero_add _).trans hlength.symm)
    have hanswer := answerIn_of_ran htables hrun
    rw [List.take_zero, List.nil_append] at hprefix hok
    have hran := hprefix.length_le.trans hsmall
    cases result with
    | ok u =>
      obtain ⟨rfl, hlast⟩ := hok rfl
      rw [Except.bind, hlast.answer_eq hwell] at hanswer
      have hcounts := hlast.counts.toNat hsmall hsmall
      rw [hcounters] at hcounts
      refine ⟨fun d => ?_, ?_⟩
      · rw [hanswer]
        cases last.host.disk.readRows (Path.join workDir (Worker.outputName p.terminal.seq)) <;>
          simp [Except.mapError]
      · rintro _ _ ⟨⟩
        refine ⟨hwell.order_spec.1.trans hperm, hwell.nodup_order, _, _, last, hturn, hprefix,
          hcounts.1, fun _ => ⟨rfl, hcounts.2.trans hlength, hanswer⟩, ?_⟩
        rintro _ ⟨⟩
    | error e =>
      obtain ⟨done, b, rfl, hfailed, hadvanced⟩ := herror e rfl
      rw [Nat.zero_add, Nat.zero_add] at hadvanced
      have hcounts := hadvanced.toNat hran ((List.prefix_append done [b]).length_le.trans hran)
      rw [hcounters] at hcounts
      refine ⟨fun d => ?_, ?_⟩
      · rw [hanswer]
        rintro ⟨⟩
        cases hfailed
      · rintro _ _ ⟨⟩
        refine ⟨hwell.order_spec.1.trans hperm, hwell.nodup_order, _, _, last, hturn, hprefix,
          hcounts.1, ?_, ?_⟩
        · rintro ⟨⟩
        · rintro _ ⟨⟩
          exact ⟨hanswer, done, b, rfl, hfailed, hcounts.2⟩

/-- A query of four blocks that is cancelled while it starts the first one. -/
theorem exists_cancelled : ∃ p,
    MasterPlan.ofBlocks MasterPlan.Diamond.query MasterPlan.Diamond.blocks
      (MasterPlan.Diamond.id 4) = .ok p ∧
    (bindTables frameSample.catalog (scannedTables p) .empty frameSample.host).1.isOk = true ∧
    (answerIn frameSample.catalog p "out" (fun _ => some 0) frameSample.host).1 =
      .error (.execution (MasterPlan.Diamond.id 1) .cancelled) ∧
    (answerIn frameSample.catalog p "out" (fun _ => some 0)
      frameSample.host).2.counters.get .blocksDispatched = 1 := by
  have hrun : (MasterPlan.ofBlocks MasterPlan.Diamond.query MasterPlan.Diamond.blocks
      (MasterPlan.Diamond.id 4)).toOption.map (fun p =>
        let answer := answerIn frameSample.catalog p "out" (fun _ => some 0) frameSample.host
        ((bindTables frameSample.catalog (scannedTables p) .empty frameSample.host).1.isOk,
          answer.1, answer.2.counters.get .blocksDispatched)) =
      some (true, .error (.execution (MasterPlan.Diamond.id 1) .cancelled), 1) := by
    decide +kernel
  obtain ⟨p, hp, heq⟩ := Option.map_eq_some_iff.mp hrun
  simp only [Prod.mk.injEq] at heq
  exact ⟨p, Except.toOption_eq_some.mp hp, heq⟩

theorem answerIn_inTurn_of_cancelled : ∃ p ctx bound b last,
    MasterPlan.ofBlocks MasterPlan.Diamond.query MasterPlan.Diamond.blocks
      (MasterPlan.Diamond.id 4) = .ok p ∧
    QueryRun.InTurn (fun _ => some 0) p.blocks.length (.start p ctx "out" bound) [b]
      (.error (.execution (MasterPlan.Diamond.id 1) .cancelled)) last ∧
    b.id = MasterPlan.Diamond.id 1 := by
  obtain ⟨p, hp, htables, hanswer, hcount⟩ := exists_cancelled
  rcases hbound : bindTables frameSample.catalog (scannedTables p) .empty frameSample.host with
    ⟨e | ctx, bound⟩
  · rw [hbound] at htables
    cases htables
  · obtain ⟨-, -, ran, result, last, hturn, -, hdispatched, hok, herror⟩ :=
      (answerIn_inTurn hp frameSample.catalog "out" (fun _ => some 0) frameSample.host).2
        ctx bound hbound
    cases result with
    | ok u =>
      obtain ⟨-, -, hrows⟩ := hok rfl
      rw [hrows] at hanswer
      cases hread : last.host.disk.readRows
          (Path.join "out" (Worker.outputName p.terminal.seq)) <;>
        rw [hread] at hanswer <;> cases hanswer
    | error e =>
      obtain ⟨hfails, done, b, rfl, hfailed, -⟩ := herror e rfl
      rw [hfails] at hanswer hcount
      cases hanswer
      have hzero : frameSample.host.counters.get .blocksDispatched = 0 := rfl
      rw [hcount, hzero] at hdispatched
      have hlength : 1 = (done ++ [b]).length := hdispatched
      rw [List.length_append, List.length_singleton] at hlength
      obtain rfl : done = [] := List.length_eq_zero_iff.mp (Nat.succ.inj hlength).symm
      generalize hid : b.id = id at hfailed
      cases hfailed
      exact ⟨p, ctx, bound, b, last, hp, hturn, hid⟩

end Engine
end BlockQuery
