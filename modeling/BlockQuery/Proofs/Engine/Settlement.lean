import Mathlib.Tactic
import BlockQuery.Engine.Worker

/-!
# How blocks end

A worker that has taken a block out of the queue makes the directory of outputs, runs the block,
and reports and counts how it ended.  A block for which the directory cannot be made is neither
counted nor reported any more: it stays as one that is running.
-/

namespace BlockQuery

/-! ## What is counted -/

/-- Whether a counter is raised by sources of rows. -/
def Counter.isOfSources : Counter → Bool
  | .rowsScanned | .indexLookups => true
  | _ => false

/-- Whether a counter went up by one.  The others are as they were, except for those of sources. -/
def Counters.Raised (counter : Counter) (before after : Counters) : Prop :=
  ∀ k : Counter, k.isOfSources = false →
    after.get k = before.get k + if k = counter then 1 else 0

namespace Counters

variable {c before after : Counters} {counter k : Counter}

theorem get_addTally (hk : k.isOfSources = false) (t : Tally) : (c.addTally t).get k = c.get k := by
  have hscanned : Counter.rowsScanned ≠ k := by
    rintro rfl
    cases hk
  have hlookups : Counter.indexLookups ≠ k := by
    rintro rfl
    cases hk
  rw [addTally, get_add, if_neg hlookups, get_add, if_neg hscanned]

theorem raised_add (h : ∀ k, k.isOfSources = false → after.get k = before.get k) :
    Raised counter before (after.add counter 1) := by
  intro k hk
  rw [get_add, h k hk]
  by_cases heq : counter = k
  · rw [if_pos heq, if_pos heq.symm]
    rfl
  · rw [if_neg heq, if_neg (Ne.symm heq), UInt64.add_zero]

/-- How many blocks have ended. -/
def ended (c : Counters) : UInt64 := c.get .blocksCompleted + c.get .blocksFailed

theorem Raised.ended (h : Raised counter before after)
    (hcounter : counter = .blocksCompleted ∨ counter = .blocksFailed) :
    after.ended = before.ended + 1 := by
  rw [Counters.ended, Counters.ended, h .blocksCompleted rfl, h .blocksFailed rfl]
  rcases hcounter with rfl | rfl
  · rw [if_pos rfl, if_neg (by decide), UInt64.add_zero]
    grind
  · rw [if_neg (by decide), if_pos rfl, UInt64.add_zero]
    grind

end Counters

namespace Block

variable (b : Block) (ctx : TaskContext) (cancelAt : Option ℕ) (path : String) (host : Host)
  {k : Counter}

theorem get_counters_writeRows (hk : k.isOfSources = false) :
    (b.writeRows ctx cancelAt path host).2.counters.get k = host.counters.get k := by
  rw [writeRows]
  split
  next => rfl
  next =>
    split
    next => rfl
    next => exact Counters.get_addTally hk _

theorem counters_reportFailure (scope : Scope) (id : String) (e : ExecError) :
    (reportFailure scope id e host).counters = host.counters := by
  rw [reportFailure]
  split <;> rfl

/-- A block that is run is not counted, and hands over the file that it has written. -/
theorem run_spec :
    (∀ k : Counter, k.isOfSources = false →
      (b.run ctx cancelAt path host).2.counters.get k = host.counters.get k) ∧
    ∀ o, (b.run ctx cancelAt path host).1 = .ok o →
      o.seq = b.id.seq ∧ o.fragment.path = path := by
  rw [run]
  rcases Scope.enter "BLOCK_EXEC" [("block", b.id.display)] host.log with ⟨scope, log⟩
  have hcounters := fun (k : Counter) (hk : k.isOfSources = false) =>
    b.get_counters_writeRows ctx cancelAt path { host with log := log } hk
  dsimp only
  generalize b.writeRows ctx cancelAt path { host with log := log } = written at hcounters
  obtain ⟨e | rows, after⟩ := written
  · refine ⟨fun k hk => ?_, fun o ho => nomatch ho⟩
    rw [counters_reportFailure]
    exact hcounters k hk
  · refine ⟨hcounters, fun o ho => ?_⟩
    cases ho
    exact ⟨rfl, rfl⟩

end Block

/-! ## One block -/

namespace Worker

variable {w : Worker} {c : Channel} {host : Host} {d : Dispatched}

/-- Whether the directory of outputs is there or can be made. -/
def canWrite (w : Worker) (disk : Disk) : Bool := (disk.createDirectories w.workDir).1.isOk

/-- What becomes of a block that was taken. -/
inductive Executed (w : Worker) (d : Dispatched) (c : Channel) (host : Host) :
    Except EngineError BlockOutput × Worker × Channel × Host → Prop
  | stranded {e : IoError} {disk : Disk}
    (made : host.disk.createDirectories w.workDir = (.error e, disk)) :
    Executed w d c host
      (.error (.io e), w, c.report d.handle .running, { host with disk := disk })
  | succeeded {o : BlockOutput} {after : Host} (made : w.canWrite host.disk)
    (seq : o.seq = d.request.block.id.seq)
    (path : o.fragment.path = w.outputPath d.request.block)
    (counted : Counters.Raised .blocksCompleted host.counters after.counters) :
    Executed w d c host (.ok o, w.register o,
      (c.report d.handle .running).report d.handle (.succeeded o.rows), after)
  | failed {e : ExecError} {after : Host} (made : w.canWrite host.disk)
    (counted : Counters.Raised .blocksFailed host.counters after.counters) :
    Executed w d c host (.error (.execution d.request.block.id e), w,
      (c.report d.handle .running).report d.handle (.failed e.display e.isFatal), after)

theorem executed (w : Worker) (d : Dispatched) (c : Channel) (host : Host) :
    Executed w d c host (w.execute d c host) := by
  rw [execute]
  rcases hmade : host.disk.createDirectories w.workDir with ⟨e | u, disk⟩
  · exact .stranded hmade
  · have hcan : w.canWrite host.disk := by
      rw [canWrite, hmade]
      rfl
    obtain ⟨hcounters, houtput⟩ := d.request.block.run_spec w.ctx w.cancelAt
      (w.outputPath d.request.block) { host with disk := disk }
    dsimp only
    generalize d.request.block.run w.ctx w.cancelAt (w.outputPath d.request.block)
      { host with disk := disk } = ran at hcounters houtput
    obtain ⟨e | o, after⟩ := ran
    · exact .failed hcan (Counters.raised_add hcounters)
    · obtain ⟨hseq, hpath⟩ := houtput o rfl
      exact .succeeded hcan hseq hpath (Counters.raised_add hcounters)

/-! ## One call -/

/-- Whether a call settles the block that it takes, if there is one: it tells how the block ended,
reports and counts it, and registers the output of a block that has succeeded. -/
inductive Settles (w : Worker) (c : Channel) (host : Host) :
    Except EngineError (Option BlockOutput) × Worker × Channel × Host → Prop
  | idle (waiting : c.waiting = []) : Settles w c host (.ok none, w, c, host)
  | succeeded {d : Dispatched} {o : BlockOutput} {later : Channel} {after : Host}
    (waiting : c.waiting = d :: later.waiting)
    (status : ∀ handle, later.status handle =
      if handle.id = d.handle.id then .succeeded o.rows else c.status handle)
    (seq : o.seq = d.request.block.id.seq)
    (counted : Counters.Raised .blocksCompleted host.counters after.counters) :
    Settles w c host (.ok (some o), w.register o, later, after)
  | failed {d : Dispatched} {e : ExecError} {later : Channel} {after : Host}
    (waiting : c.waiting = d :: later.waiting)
    (status : ∀ handle, later.status handle =
      if handle.id = d.handle.id then .failed e.display e.isFatal else c.status handle)
    (counted : Counters.Raised .blocksFailed host.counters after.counters) :
    Settles w c host (.error (.execution d.request.block.id e), w, later, after)

theorem step_nil (h : c.waiting = []) : w.step c host = (.ok none, w, c, host) := by
  rw [step, Channel.take?, h]

theorem step_cons {ds : List Dispatched} (h : c.waiting = d :: ds) : w.step c host =
    ((w.execute d { c with waiting := ds } host).1.map some,
      (w.execute d { c with waiting := ds } host).2) := by
  rw [step, Channel.take?, h]
  dsimp only
  rcases w.execute d { c with waiting := ds } host with ⟨e | o, rest⟩ <;> rfl

theorem status_report_twice (handle other : DispatchHandle) (first last : BlockState) :
    ((c.report handle first).report handle last).status other =
      if other.id = handle.id then last else c.status other := by
  rw [Channel.status_report, Channel.status_report]
  split <;> rfl

theorem settles_step_iff :
    w.Settles c host (w.step c host) ↔ c.waiting = [] ∨ w.canWrite host.disk := by
  cases hwaiting : c.waiting with
  | nil =>
    rw [step_nil hwaiting]
    exact iff_of_true (.idle hwaiting) (.inl rfl)
  | cons d ds =>
    rw [step_cons hwaiting]
    have hexecuted := w.executed d { c with waiting := ds } host
    generalize w.execute d { c with waiting := ds } host = result at hexecuted
    cases hexecuted with
    | stranded made =>
      refine iff_of_false (fun h => nomatch h) ?_
      rintro (h | h)
      · cases h
      · rw [canWrite, made] at h
        cases h
    | succeeded made seq _ counted =>
      exact iff_of_true (.succeeded hwaiting (status_report_twice _ · _ _) seq counted) (.inr made)
    | failed made counted =>
      exact iff_of_true (.failed hwaiting (status_report_twice _ · _ _) counted) (.inr made)

section Executed

variable {result : Except EngineError BlockOutput × Worker × Channel × Host}

/-- Nothing is reported of other blocks. -/
theorem Executed.others (h : Executed w d c host result) :
    result.2.2.1.nextId = c.nextId ∧ result.2.2.1.waiting = c.waiting ∧
      ∀ handle, handle.id ≠ d.handle.id → result.2.2.1.status handle = c.status handle := by
  cases h with
  | stranded => exact ⟨rfl, rfl, fun handle hne => by rw [Channel.status_report, if_neg hne]⟩
  | succeeded | failed =>
    exact ⟨rfl, rfl, fun handle hne => by rw [status_report_twice, if_neg hne]⟩

/-- A block is counted if it is reported to have ended. -/
theorem Executed.ends (h : Executed w d c host result) :
    (w.canWrite host.disk = true → (result.2.2.1.status d.handle).isFinished) ∧
    (w.canWrite host.disk = false → result.2.2.1.status d.handle = .running) ∧
    result.2.2.2.counters.ended =
      host.counters.ended + if w.canWrite host.disk then 1 else 0 := by
  cases h with
  | stranded made =>
    have hcannot : w.canWrite host.disk = false := by
      rw [canWrite, made]
      rfl
    rw [hcannot]
    refine ⟨(nomatch ·), fun _ => ?_, (UInt64.add_zero _).symm⟩
    rw [Channel.status_report, if_pos rfl]
  | succeeded made _ _ counted =>
    rw [made, status_report_twice, if_pos rfl]
    exact ⟨fun _ => rfl, (nomatch ·), counted.ended (.inl rfl)⟩
  | failed made counted =>
    rw [made, status_report_twice, if_pos rfl]
    exact ⟨fun _ => rfl, (nomatch ·), counted.ended (.inr rfl)⟩

end Executed

end Worker

/-! ## Many calls -/

/-- A submission leaves all that is known by earlier handles as it is. -/
theorem Channel.after_submit (c : Channel) (request : DispatchRequest) :
    (c.submit request).2.nextId = c.nextId + 1 ∧
      (∀ handle, handle.id < c.nextId → (c.submit request).2.status handle = c.status handle) ∧
      ((c.submit request).2.waiting = c.waiting ∨ (c.submit request).2.waiting =
        c.waiting ++ [⟨⟨c.nextId, request.block.id⟩, request⟩]) := by
  rw [submit]
  split
  · exact ⟨rfl, fun handle hlt => (status_report _ _ _ _).trans (if_neg hlt.ne), .inr rfl⟩
  · exact ⟨rfl, fun handle hlt => (status_report _ _ _ _).trans (if_neg hlt.ne), .inl rfl⟩

/-- A worker with its surroundings, and the blocks that it has taken so far, the last one first:
of each it is kept whether the directory of outputs could be made for it. -/
structure Shift where
  worker : Worker
  channel : Channel
  host : Host
  taken : List (Dispatched × Bool)

/-- What can happen: a block is submitted, the worker is called, or others change the disk and the
signal of the worker. -/
inductive Turn where
  | submit (request : DispatchRequest)
  | call
  | change (disk : Disk) (cancelAt : Option ℕ)

namespace Shift

variable {s : Shift} {before : UInt64}

def start (w : Worker) (host : Host) : Shift := ⟨w, .start, host, []⟩

def next (s : Shift) : Turn → Shift
  | .submit request => { s with channel := (s.channel.submit request).2 }
  | .call =>
    let (_, worker, channel, host) := s.worker.step s.channel s.host
    let found := s.channel.waiting.head?.toList.map fun d => (d, s.worker.canWrite s.host.disk)
    ⟨worker, channel, host, found ++ s.taken⟩
  | .change disk cancelAt =>
    { s with
      worker := { s.worker with cancelAt := cancelAt }
      host := { s.host with disk := disk } }

def after (s : Shift) (turns : List Turn) : Shift := turns.foldl next s

/-- The blocks that were submitted and not lost. -/
def kept (s : Shift) : List Dispatched := s.channel.waiting ++ s.taken.map Prod.fst

/-- Whether the blocks that were taken are reported and counted as far as they have ended. -/
structure Recorded (before : UInt64) (s : Shift) : Prop where
  nodup : (s.kept.map (·.handle.id)).Nodup
  spent : ∀ d ∈ s.kept, d.handle.id < s.channel.nextId
  ended : ∀ t ∈ s.taken, t.2 = true → (s.channel.status t.1.handle).isFinished
  running : ∀ t ∈ s.taken, t.2 = false → s.channel.status t.1.handle = .running
  counted : s.host.counters.ended = before + UInt64.ofNat (s.taken.countP (·.2))

theorem recorded_start (w : Worker) (host : Host) :
    Recorded host.counters.ended (start w host) where
  nodup := List.nodup_nil
  spent _ hd := (List.not_mem_nil hd).elim
  ended _ ht := (List.not_mem_nil ht).elim
  running _ ht := (List.not_mem_nil ht).elim
  counted := (UInt64.add_zero _).symm

theorem mem_kept_of_taken {t : Dispatched × Bool} (ht : t ∈ s.taken) : t.1 ∈ s.kept :=
  List.mem_append_right _ (List.mem_map_of_mem ht)

/-- A new handle takes the place of no other. -/
theorem Recorded.submit (h : Recorded before s) (request : DispatchRequest) :
    Recorded before (s.next (.submit request)) := by
  obtain ⟨hnext, hstatus, hwaiting⟩ := s.channel.after_submit request
  have hearlier : ∀ t ∈ s.taken, (s.channel.submit request).2.status t.1.handle =
      s.channel.status t.1.handle := fun t ht =>
    hstatus t.1.handle (h.spent t.1 (mem_kept_of_taken ht))
  have hkept : (s.next (.submit request)).kept = s.kept ∨
      ∃ d, d.handle.id = s.channel.nextId ∧ (s.next (.submit request)).kept.Perm (d :: s.kept) := by
    rw [kept, next, kept]
    rcases hwaiting with hwaiting | hwaiting
    · exact .inl (congrArg (· ++ _) hwaiting)
    · refine .inr ⟨⟨⟨s.channel.nextId, request.block.id⟩, request⟩, rfl, ?_⟩
      rw [hwaiting, List.append_assoc]
      exact List.perm_middle
  refine ⟨?_, fun d' hd' => ?_, fun t ht hmade => hearlier t ht ▸ h.ended t ht hmade,
    fun t ht hmade => hearlier t ht ▸ h.running t ht hmade, h.counted⟩
  · rcases hkept with hkept | ⟨d, hd, hperm⟩
    · exact hkept ▸ h.nodup
    · refine ((hperm.map _).nodup_iff).mpr (List.nodup_cons.mpr ⟨fun hmem => ?_, h.nodup⟩)
      obtain ⟨d', hd', heq⟩ := List.mem_map.mp hmem
      exact (h.spent d' hd').ne (heq.trans hd)
  · refine Nat.lt_of_lt_of_eq (Nat.lt_succ_of_le ?_) hnext.symm
    rcases hkept with hkept | ⟨d, hd, hperm⟩
    · exact (h.spent d' (hkept ▸ hd')).le
    · rcases List.mem_cons.mp (hperm.mem_iff.mp hd') with rfl | hd'
      · exact hd.le
      · exact (h.spent d' hd').le

/-- The block that is taken goes over to those that were taken, and all others stay as they are. -/
theorem Recorded.call (h : Recorded before s) : Recorded before (s.next .call) := by
  rw [next]
  cases hwaiting : s.channel.waiting with
  | nil =>
    rw [Worker.step_nil hwaiting]
    exact h
  | cons d ds =>
    have hexecuted := s.worker.executed d { s.channel with waiting := ds } s.host
    rw [Worker.step_cons hwaiting]
    generalize s.worker.execute d { s.channel with waiting := ds } s.host = result at hexecuted
    obtain ⟨hnext, hrest, hothers⟩ := hexecuted.others
    obtain ⟨hended, hrunning, hcounted⟩ := hexecuted.ends
    have hkept : s.kept = d :: (ds ++ s.taken.map Prod.fst) := by
      rw [kept, hwaiting]
      rfl
    have hperm : (result.2.2.1.waiting ++ d :: s.taken.map Prod.fst).Perm s.kept := by
      rw [hkept, hrest]
      exact List.perm_middle
    have hstatus : ∀ t ∈ s.taken,
        result.2.2.1.status t.1.handle = s.channel.status t.1.handle := by
      have hnodup := h.nodup
      rw [hkept, List.map_cons, List.nodup_cons] at hnodup
      intro t ht
      refine hothers _ fun heq => hnodup.1 (heq ▸ List.mem_map_of_mem ?_)
      exact List.mem_append_right _ (List.mem_map_of_mem ht)
    refine ⟨(hperm.map _).nodup_iff.mpr h.nodup, fun d' hd' => ?_, ?_, ?_, ?_⟩
    · exact hnext ▸ h.spent d' (hperm.mem_iff.mp hd')
    · refine List.forall_mem_cons.mpr ⟨hended, fun t ht hmade => ?_⟩
      exact hstatus t ht ▸ h.ended t ht hmade
    · refine List.forall_mem_cons.mpr ⟨hrunning, fun t ht hmade => ?_⟩
      exact hstatus t ht ▸ h.running t ht hmade
    · change result.2.2.2.counters.ended =
        before + UInt64.ofNat (((d, s.worker.canWrite s.host.disk) :: s.taken).countP (·.2))
      rw [hcounted, h.counted, List.countP_cons, UInt64.ofNat_add, ← UInt64.add_assoc]
      split <;> rfl

theorem Recorded.next (h : Recorded before s) (turn : Turn) : Recorded before (s.next turn) := by
  cases turn with
  | submit request => exact h.submit request
  | call => exact h.call
  | change disk cancelAt => exact ⟨h.nodup, h.spent, h.ended, h.running, h.counted⟩

theorem Recorded.after (h : Recorded before s) (turns : List Turn) :
    Recorded before (s.after turns) := by
  induction turns generalizing s with
  | nil => exact h
  | cons turn turns ih => exact ih (h.next turn)

end Shift

/-- A call of a worker settles the block that it takes just if the directory of outputs can be made,
and so all blocks that were taken in the course of time have ended, as many as are counted, just if
it could be made for each of them.  A block for which it could not be made stays as running. -/
theorem Worker.settles_iff_canWrite (w : Worker) (host : Host) :
    (∀ c, w.Settles c host (w.step c host) ↔ c.waiting = [] ∨ w.canWrite host.disk = true) ∧
    ∀ turns, let s := (Shift.start w host).after turns
      ((∀ t ∈ s.taken, (s.channel.status t.1.handle).isFinished = true) ∧
          s.host.counters.ended - host.counters.ended = UInt64.ofNat s.taken.length ↔
        ∀ t ∈ s.taken, t.2 = true) ∧
      ∀ t ∈ s.taken, t.2 = false → s.channel.status t.1.handle = .running := by
  refine ⟨fun c => settles_step_iff, fun turns => ?_⟩
  have hrecorded := (Shift.recorded_start w host).after turns
  refine ⟨⟨fun h t ht => ?_, fun h => ⟨fun t ht => hrecorded.ended t ht (h t ht), ?_⟩⟩,
    hrecorded.running⟩
  · by_contra hcannot
    have hfinished := h.1 t ht
    rw [hrecorded.running t ht (Bool.eq_false_iff.mpr hcannot)] at hfinished
    cases hfinished
  · rw [hrecorded.counted, List.countP_eq_length.mpr h, UInt64.add_comm, UInt64.add_sub_cancel]

namespace Stranded

def disk : Disk := ⟨[([".", "queries"], .file 0 [])], 1⟩

def host : Host := ⟨disk, Log.start .fatal ⟨"", ""⟩, .zero, 2⟩

/-- A worker whose directory is to be below a file. -/
def worker : Worker := .start .empty "queries/q"

def handle : DispatchHandle := ⟨1, ⟨QueryId.ofNat 1, 1⟩⟩

def request : DispatchRequest :=
  ⟨⟨handle.block, [], .none, none, .scan ⟨.table "t", [⟨"t.a", .int4⟩], none, none⟩⟩, true⟩

def channel : Channel := (Channel.start.submit request).2

theorem createDirectories_disk :
    disk.createDirectories worker.workDir = (.error .notDirectory, disk) := by
  have hensure : disk.ensureDirectory ["."] ["q", "queries"] = (.error .notDirectory, disk) :=
    rfl
  have hbackwards : Path.backwards "queries/q" = (["."], ["q", "queries"]) := by decide +kernel
  have hcheck : Path.check "queries/q" = .ok () := by decide +kernel
  rw [worker, Worker.start, Disk.createDirectories, hcheck, hbackwards]
  dsimp only
  unfold Disk.ensureDirectories
  rw [hensure]
  rfl

end Stranded

/-- A worker that takes a block while a file is in the way of its directory leaves the block as
running, and counts nothing. -/
theorem Worker.not_settles_of_file :
    ¬Stranded.worker.Settles Stranded.channel Stranded.host
      (Stranded.worker.step Stranded.channel Stranded.host) ∧
    (Stranded.worker.step Stranded.channel Stranded.host).2.2.1.status Stranded.handle = .running ∧
    (Stranded.worker.step Stranded.channel Stranded.host).2.2.2.counters = .zero := by
  have hwaiting : Stranded.channel.waiting = [⟨Stranded.handle, Stranded.request⟩] := rfl
  have hmade : Stranded.host.disk.createDirectories Stranded.worker.workDir =
      (.error .notDirectory, Stranded.disk) := Stranded.createDirectories_disk
  refine ⟨fun h => ?_, ?_, ?_⟩
  · rcases settles_step_iff.mp h with h | h
    · cases h
    · rw [canWrite, hmade] at h
      cases h
  · rw [step_cons hwaiting, execute, hmade]
    rfl
  · rw [step_cons hwaiting, execute, hmade]
    rfl

end BlockQuery
