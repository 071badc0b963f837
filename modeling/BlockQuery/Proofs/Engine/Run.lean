import BlockQuery.Proofs.Engine.OutputFiles
import BlockQuery.Proofs.Execution.BlockOutput
import BlockQuery.Proofs.MasterPlan.Partition
import BlockQuery.Proofs.RowFile.Located

/-!
# Running a query in blocks

A worker that runs the blocks of a query in their order has, after each of
them, the outputs of those that ran: files of the relations of the parts which
these blocks stand for.  It comes to the end if the query can be evaluated in
one piece and the rows of all stored parts are as wide as their schemas say;
then the file of the terminal block holds the answer.
-/

namespace BlockQuery

namespace Worker

theorem outputFragments_register (w : Worker) (o : BlockOutput) (seq : UInt32) :
    (w.register o).ctx.outputFragments seq =
      w.ctx.outputFragments seq ++ if o.seq = seq then [o.fragment] else [] := by
  simp only [register, TaskContext.addOutput, TaskContext.outputFragments, List.filter_append,
    List.map_append]
  by_cases hseq : o.seq = seq <;> simp [hseq]

theorem output?_register (w : Worker) (o : BlockOutput) (seq : UInt32) :
    (w.register o).output? seq = if o.seq = seq then some o else w.output? seq := by
  simp only [register, output?, List.find?_cons]
  by_cases hseq : o.seq = seq
  · simp [hseq]
  · have hbeq : (o.seq == seq) = false := by simpa using hseq
    simp [hbeq, hseq]

/-- The file that a block hands over. -/
def outputFragment (workDir : String) (seq : UInt32) : Fragment :=
  ⟨s!"block_{seq.toNat}", Path.join workDir (outputName seq)⟩

/-- A worker runs a block whose plan has a relation on the disk with the new, empty file, and fails
on any other. -/
theorem execute_of_room {w : Worker} {host : Host} {dir : String} {place : Place}
    {blocks : List Block} (hroom : Room host.disk dir place blocks) (hdir : w.workDir = dir)
    (hcancel : w.cancelAt = none) {d : Dispatched} (hb : d.request.block ∈ blocks)
    (channel : Channel) :
    ∃ after, Disk.SameDirectories host.disk after ∧
      (∀ q, q ≠ outputPlace place d.request.block.id.seq → after.get? q = host.disk.get? q) ∧
      (∀ r, d.request.block.plan.relation? w.ctx after = some r → ∃ channel' host',
        w.execute d channel host = (.ok ⟨d.request.block.id.seq, r.rows.length,
          outputFragment dir d.request.block.id.seq⟩, w.register ⟨d.request.block.id.seq,
            r.rows.length, outputFragment dir d.request.block.id.seq⟩, channel', host') ∧
        host.disk.Gains (outputPlace place d.request.block.id.seq) r.rows host'.disk ∧
        Disk.SameDirectories host.disk host'.disk) ∧
      (d.request.block.plan.relation? w.ctx after = none → ∃ e rest,
        w.execute d channel host = (.error e, rest)) := by
  obtain ⟨file, after, hcreate, hplace, hopened⟩ := hroom.create hb
  have hdirs : host.disk.createDirectories w.workDir = (.ok (), host.disk) := by
    rw [hdir]
    exact hroom.leadsTo.createDirectories_of_leadsTo
  have hpath : w.outputPath d.request.block =
      Path.join dir (outputName d.request.block.id.seq) := by
    rw [outputPath, hdir]
    rfl
  refine ⟨after, hopened.sameDirectories, hplace ▸ hopened.get?_of_ne, fun r hr => ?_,
    fun hnone => ?_⟩
  · obtain ⟨host', hrun, hgains⟩ := Block.run_of_some hcreate hopened hr
    rw [hplace] at hgains
    have hsame : Disk.SameDirectories host.disk host'.disk := by
      obtain ⟨number, hfile⟩ := hgains.get?_self
      exact Disk.sameDirectories_of_ne (hroom.free _ hb) (fun hd => nomatch hfile.symm.trans hd)
        hgains.get?_of_ne
    rw [execute]
    simp only [hdirs, hpath, hcancel, hrun]
    exact ⟨_, _, rfl, hgains, hsame⟩
  · obtain ⟨e, host', hrun⟩ := Block.run_of_none hcreate hnone
    rw [execute]
    simp only [hdirs, hpath, hcancel, hrun]
    exact ⟨_, _, rfl⟩

/-! ## What blocks leave as it was -/

section Kept

/-- What a worker and its disk keep while blocks run: beside the outputs of these blocks all is as
it was. -/
structure Kept (ctx : TaskContext) (disk : Disk) (dir : String) (place : Place)
    (done : List BlockId) (w : Worker) (now : Disk) : Prop where
  tables : w.ctx.tables = ctx.tables
  indexes : w.ctx.indexes = ctx.indexes
  cancelAt : w.cancelAt = none
  workDir : w.workDir = dir
  directories : Disk.SameDirectories disk now
  others : ∀ q, (∀ id ∈ done, q ≠ outputPlace place id.seq) → now.get? q = disk.get? q
  absent : ∀ seq, (∀ id ∈ done, seq ≠ id.seq) → w.ctx.outputFragments seq = []
  outputs : ∀ id ∈ done, w.ctx.outputFragments id.seq = [outputFragment dir id.seq]

variable {ctx : TaskContext} {disk : Disk} {dir : String} {place : Place} {w : Worker}
  {done : List BlockId} {now : Disk}

theorem kept_start (hctx : ctx.outputs = []) : Kept ctx disk dir place [] (.start ctx dir) disk where
  tables := rfl
  indexes := rfl
  cancelAt := rfl
  workDir := rfl
  directories := Disk.SameDirectories.refl disk
  others _ _ := rfl
  absent seq _ := by simp [start, TaskContext.outputFragments, hctx]
  outputs _ hid := (List.not_mem_nil hid).elim

/-- While the file of a block is written, the tables stay. -/
theorem Kept.sameTables {blocks : List Block}
    (hapart : ∀ t ∈ ctx.tables, ∀ b ∈ blocks,
      disk.resolve t.2.path ≠ .ok (outputPlace place b.id.seq))
    (h : Kept ctx disk dir place done w now) (hdone : ∀ id ∈ done, id ∈ blocks.map Block.id)
    {b : Block} (hb : b ∈ blocks) {after : Disk} (hsame : Disk.SameDirectories now after)
    (hget : ∀ q, q ≠ outputPlace place b.id.seq → after.get? q = now.get? q) :
    SameTables ctx disk w.ctx after := by
  refine ⟨h.tables, h.indexes, ?_⟩
  intro t ht
  refine Disk.reader?_congr (h.directories.trans hsame) ?_
  intro q hq
  have hne : ∀ c ∈ blocks, q ≠ outputPlace place c.id.seq := by
    rintro c hc rfl
    exact hapart t ht c hc hq
  rw [hget q (hne b hb), h.others q]
  intro id hid
  obtain ⟨c, hc, rfl⟩ := List.mem_map.mp (hdone id hid)
  exact hne c hc

/-- A worker that has registered one more output. -/
theorem Kept.register (h : Kept ctx disk dir place done w now) {id : BlockId}
    (hfresh : ∀ i ∈ done, id.seq ≠ i.seq) {rows : List Row} {later : Disk}
    (hgains : now.Gains (outputPlace place id.seq) rows later)
    (hsame : Disk.SameDirectories now later) (n : ℕ) :
    Kept ctx disk dir place (done ++ [id])
      (w.register ⟨id.seq, n, outputFragment dir id.seq⟩) later := by
  refine ⟨h.tables, h.indexes, h.cancelAt, h.workDir, h.directories.trans hsame, ?_, ?_, ?_⟩
  · intro q hq
    rw [hgains.get?_of_ne q (hq id (by simp)),
      h.others q fun i hi => hq i (List.mem_append_left _ hi)]
  · intro seq hseq
    rw [outputFragments_register, h.absent seq fun i hi => hseq i (List.mem_append_left _ hi),
      if_neg (hseq id (by simp)).symm, List.append_nil]
  · intro i hi
    rw [outputFragments_register]
    rcases List.mem_append.mp hi with hi | hi
    · rw [h.outputs i hi, if_neg (hfresh i hi), List.append_nil]
    · obtain rfl := List.mem_singleton.mp hi
      rw [h.absent i.seq hfresh, if_pos rfl, List.nil_append]

end Kept

/-- Whether dispatched blocks of a plan are still to run behind others, each once and behind its
inputs. -/
structure Ahead (plan : MasterPlan) (done : List BlockId) (ds : List Dispatched) : Prop where
  ran : ∀ id ∈ done, id ∈ plan.blocks.map Block.id
  blocks : ∀ d ∈ ds, d.request.block ∈ plan.blocks
  nodup : (done ++ ds.map (·.request.block.id)).Nodup
  ordered : MasterPlan.InputsFirst done (ds.map (·.request.block))

theorem ahead_of_perm {plan : MasterPlan} (hwell : plan.WellFormed) {ds : List Dispatched}
    (hperm : (ds.map (·.request.block)).Perm plan.blocks)
    (hordered : MasterPlan.InputsFirst [] (ds.map (·.request.block))) : Ahead plan [] ds where
  ran _ hid := (List.not_mem_nil hid).elim
  blocks _ hd := hperm.mem_iff.mp (List.mem_map_of_mem hd)
  nodup := by
    have hids := (hperm.map Block.id).nodup_iff.mpr hwell.distinct.ids
    rwa [List.map_map] at hids
  ordered := hordered

theorem Ahead.head {plan : MasterPlan} {done : List BlockId} {d : Dispatched}
    {ds : List Dispatched} (h : Ahead plan done (d :: ds)) :
    d.request.block ∈ plan.blocks ∧ (∀ i ∈ d.request.block.inputs, i ∈ done) ∧
      d.request.block.id ∉ done :=
  ⟨h.blocks d List.mem_cons_self, h.ordered.1,
    fun hin => List.disjoint_of_nodup_append h.nodup hin List.mem_cons_self⟩

theorem Ahead.tail {plan : MasterPlan} {done : List BlockId} {d : Dispatched}
    {ds : List Dispatched} (h : Ahead plan done (d :: ds)) :
    Ahead plan (done ++ [d.request.block.id]) ds where
  ran id hid := by
    rcases List.mem_append.mp hid with hid | hid
    · exact h.ran id hid
    · rw [List.mem_singleton.mp hid]
      exact List.mem_map_of_mem h.head.1
  blocks c hc := h.blocks c (List.mem_cons_of_mem _ hc)
  nodup := by
    have hnodup := h.nodup
    rwa [List.map_cons, ← List.singleton_append, ← List.append_assoc] at hnodup
  ordered := h.ordered.2

/-- A block that is still to run has a number of its own. -/
theorem Ahead.seq_ne {plan : MasterPlan} (hwell : plan.WellFormed) {done : List BlockId}
    {d : Dispatched} {ds : List Dispatched} (h : Ahead plan done (d :: ds)) :
    ∀ id ∈ done, d.request.block.id.seq ≠ id.seq := by
  intro id hid hseq
  obtain ⟨c, hc, rfl⟩ := List.mem_map.mp (h.ran id hid)
  have hcb := hwell.eq_of_seq h.head.1 hc hseq
  exact h.head.2.2 (hcb ▸ hid)

/-! ## The relations of blocks -/

section Progress

variable (origin : UInt32 → Plan) (ctx : TaskContext) (disk : Disk) (dir : String)
  (place : Place)

/-- What a worker and its disk have come to after some blocks. -/
structure Ran (done : List BlockId) (w : Worker) (now : Disk) : Prop where
  tables : w.ctx.tables = ctx.tables
  indexes : w.ctx.indexes = ctx.indexes
  cancelAt : w.cancelAt = none
  workDir : w.workDir = dir
  directories : Disk.SameDirectories disk now
  others : ∀ q, (∀ id ∈ done, q ≠ outputPlace place id.seq) → now.get? q = disk.get? q
  absent : ∀ seq, (∀ id ∈ done, seq ≠ id.seq) → w.ctx.outputFragments seq = []
  outputs : ∀ id ∈ done, w.ctx.outputFragments id.seq = [outputFragment dir id.seq]
  output? : ∀ id ∈ done, ∃ o, w.output? id.seq = some o ∧
    o.fragment = outputFragment dir id.seq
  stored : ∀ id ∈ done, ∃ rows number,
    now.get? (outputPlace place id.seq) = some (.file number (rows.flatMap Record.encode)) ∧
    (origin id.seq).relation? ctx disk = some ⟨(origin id.seq).schema, rows⟩

/-- Whether what a block stands for has a relation, and what it reads is as wide as it should be. -/
def Passes (b : Block) : Prop :=
  (∃ r, (origin b.id.seq).relation? ctx disk = some r) ∧
    ∀ seq ∈ b.plan.scannedBlocks, ∀ r, (origin seq).relation? ctx disk = some r → r.Wide

end Progress

/-- What a run of the blocks of a query relies on. -/
structure Runs (plan : MasterPlan) (child : Plan) (origin : UInt32 → Plan) (ctx : TaskContext)
    (disk : Disk) (dir : String) (place : Place) : Prop where
  represents : plan.Represents child origin
  room : Room disk dir place plan.blocks
  noOutputs : ctx.outputs = []
  apart : ∀ t ∈ ctx.tables, ∀ b ∈ plan.blocks,
    disk.resolve t.2.path ≠ .ok (outputPlace place b.id.seq)
  schema : ∀ b ∈ plan.blocks, ∀ r, (origin b.id.seq).relation? ctx disk = some r →
    r.schema = (origin b.id.seq).schema
  fits : ∀ b ∈ plan.blocks, ∀ r, (origin b.id.seq).relation? ctx disk = some r →
    ∀ row ∈ r.rows, row.Fits

variable {plan : MasterPlan} {child : Plan} {origin : UInt32 → Plan} {ctx : TaskContext}
  {disk : Disk} {dir : String} {place : Place} {w : Worker} {done : List BlockId}

theorem Ran.kept {now : Disk} (h : Ran origin ctx disk dir place done w now) :
    Kept ctx disk dir place done w now :=
  ⟨h.tables, h.indexes, h.cancelAt, h.workDir, h.directories, h.others, h.absent, h.outputs⟩

namespace Runs

theorem ran_start (h : Runs plan child origin ctx disk dir place) :
    Ran origin ctx disk dir place [] (.start ctx dir) disk :=
  { kept_start h.noOutputs with
    output? := fun _ hid => (List.not_mem_nil hid).elim
    stored := fun _ hid => (List.not_mem_nil hid).elim }

/-- While the file of a block is written, the tables and the outputs of other blocks stay. -/
theorem sameTables (h : Runs plan child origin ctx disk dir place) {now after : Disk}
    (hran : Ran origin ctx disk dir place done w now)
    (hdone : ∀ id ∈ done, id ∈ plan.blocks.map Block.id) {b : Block} (hb : b ∈ plan.blocks)
    (hsame : Disk.SameDirectories now after)
    (hget : ∀ q, q ≠ outputPlace place b.id.seq → after.get? q = now.get? q) :
    SameTables ctx disk w.ctx after :=
  hran.kept.sameTables h.apart hdone hb hsame hget

theorem hasOutput (h : Runs plan child origin ctx disk dir place) {now after : Disk}
    (hran : Ran origin ctx disk dir place done w now)
    (hdone : ∀ id ∈ done, id ∈ plan.blocks.map Block.id) (hsame : Disk.SameDirectories now after)
    {id : BlockId} (hid : id ∈ done)
    (hget : after.get? (outputPlace place id.seq) = now.get? (outputPlace place id.seq)) :
    Stands.HasOutput origin ctx disk w.ctx after id.seq := by
  obtain ⟨rows, number, hfile, hrelation⟩ := hran.stored id hid
  obtain ⟨b, hb, rfl⟩ := List.mem_map.mp (hdone id hid)
  have hroom := h.room.congr (hran.directories.trans hsame)
  refine ⟨_, rows, hran.outputs _ hid, ?_, hrelation⟩
  exact Disk.rows?_of_open (h.fits b hb _ hrelation) (hroom.open? (hget.trans hfile))

/-- While the file of a block is empty, the block has a relation just if it passes, and then
that of what it stands for. -/
theorem relation?_of_opened (h : Runs plan child origin ctx disk dir place) {now after : Disk}
    (hran : Ran origin ctx disk dir place done w now)
    (hdone : ∀ id ∈ done, id ∈ plan.blocks.map Block.id) {b : Block} (hb : b ∈ plan.blocks)
    (hinputs : ∀ i ∈ b.inputs, i ∈ done) (hfresh : b.id ∉ done)
    (hsame : Disk.SameDirectories now after)
    (hget : ∀ q, q ≠ outputPlace place b.id.seq → after.get? q = now.get? q) :
    (Passes origin ctx disk b →
      b.plan.relation? w.ctx after = (origin b.id.seq).relation? ctx disk) ∧
    (¬Passes origin ctx disk b → b.plan.relation? w.ctx after = none) := by
  have htables := h.sameTables hran hdone hb hsame hget
  have hout : ∀ seq ∈ b.plan.scannedBlocks, Stands.HasOutput origin ctx disk w.ctx after seq := by
    intro seq hseq
    obtain ⟨i, hi, rfl⟩ := List.mem_map.mp ((h.represents.wellFormed.scanned b hb seq).mp hseq)
    refine h.hasOutput hran hdone hsame (hinputs i hi) (hget _ ?_)
    intro heq
    obtain ⟨c, hc, rfl⟩ := List.mem_map.mp (hdone i (hinputs i hi))
    have hcb := h.represents.wellFormed.eq_of_seq hc hb (outputPlace_inj heq)
    exact hfresh (hcb ▸ hinputs _ hi)
  have hstands := h.represents.stands b hb
  refine ⟨fun hpass => hstands.relation?_eq htables hout hpass.2, fun hfail => ?_⟩
  by_contra hsome
  obtain ⟨found, hfound⟩ := Option.ne_none_iff_exists'.mp hsome
  have hwide := hstands.wide_of_relation? hout hfound
  exact hfail ⟨⟨found, (hstands.relation?_eq htables hout hwide).symm.trans hfound⟩, hwide⟩

/-- A worker that has registered one more output. -/
theorem ran_register (h : Runs plan child origin ctx disk dir place) {now later : Disk}
    (hran : Ran origin ctx disk dir place done w now) {b : Block} (hb : b ∈ plan.blocks)
    (hfresh : ∀ id ∈ done, b.id.seq ≠ id.seq) {r : Relation}
    (hr : (origin b.id.seq).relation? ctx disk = some r)
    (hgains : now.Gains (outputPlace place b.id.seq) r.rows later)
    (hsame : Disk.SameDirectories now later) (n : ℕ) :
    Ran origin ctx disk dir place (done ++ [b.id])
      (w.register ⟨b.id.seq, n, outputFragment dir b.id.seq⟩) later := by
  have hplace : ∀ id ∈ done, outputPlace place id.seq ≠ outputPlace place b.id.seq :=
    fun id hid heq => hfresh id hid (outputPlace_inj heq).symm
  refine { hran.kept.register hfresh hgains hsame n with output? := ?_, stored := ?_ }
  · intro id hid
    rw [output?_register]
    rcases List.mem_append.mp hid with hid | hid
    · rw [if_neg (hfresh id hid)]
      exact hran.output? id hid
    · obtain rfl := List.mem_singleton.mp hid
      exact ⟨_, if_pos rfl, rfl⟩
  · intro id hid
    rcases List.mem_append.mp hid with hid | hid
    · rw [hgains.get?_of_ne _ (hplace id hid)]
      exact hran.stored id hid
    · obtain rfl := List.mem_singleton.mp hid
      obtain ⟨number, hfile⟩ := hgains.get?_self
      refine ⟨r.rows, number, hfile, ?_⟩
      rw [hr, ← h.schema b hb r hr]

/-- A worker runs a block that passes, and fails on one that does not. -/
theorem execute_spec (h : Runs plan child origin ctx disk dir place) {host : Host}
    (hran : Ran origin ctx disk dir place done w host.disk) {d : Dispatched} {ds : List Dispatched}
    (hahead : Ahead plan done (d :: ds)) (channel : Channel) :
    (Passes origin ctx disk d.request.block → ∃ o w' channel' host',
      w.execute d channel host = (.ok o, w', channel', host') ∧
      Ran origin ctx disk dir place (done ++ [d.request.block.id]) w' host'.disk) ∧
    (¬Passes origin ctx disk d.request.block → ∃ e rest,
      w.execute d channel host = (.error e, rest)) := by
  obtain ⟨hb, hinputs, hfresh⟩ := hahead.head
  obtain ⟨after, hopened, hget, hgood, hbad⟩ := execute_of_room (h.room.congr hran.directories)
    hran.workDir hran.cancelAt hb channel
  have hrelation := h.relation?_of_opened hran hahead.ran hb hinputs hfresh hopened hget
  refine ⟨fun hpass => ?_, fun hfail => hbad (hrelation.2 hfail)⟩
  obtain ⟨r, hr⟩ := hpass.1
  obtain ⟨channel', host', hexecute, hgains, hsame⟩ := hgood r ((hrelation.1 hpass).trans hr)
  have hseq := hahead.seq_ne h.represents.wellFormed
  exact ⟨_, _, _, _, hexecute, h.ran_register hran hb hseq hr hgains hsame _⟩

/-- A worker comes to the end of given blocks if all of them pass. -/
theorem runAll_spec (h : Runs plan child origin ctx disk dir place) {ds : List Dispatched}
    {host : Host} (hran : Ran origin ctx disk dir place done w host.disk)
    (hahead : Ahead plan done ds) (channel : Channel) (ran : ℕ) :
    ((∀ d ∈ ds, Passes origin ctx disk d.request.block) → ∃ n w' channel' host',
      w.runAll channel host ran ds = (.ok n, w', channel', host') ∧
      Ran origin ctx disk dir place (done ++ ds.map (·.request.block.id)) w' host'.disk) ∧
    (¬(∀ d ∈ ds, Passes origin ctx disk d.request.block) → ∃ e rest,
      w.runAll channel host ran ds = (.error e, rest)) := by
  induction ds generalizing done w channel host ran with
  | nil =>
    refine ⟨fun _ => ⟨ran, w, channel, host, rfl, ?_⟩, fun hfail => ?_⟩
    · simpa using hran
    · exact absurd (fun _ hd => (List.not_mem_nil hd).elim) hfail
  | cons d ds ih =>
    have hsplit : done ++ (d :: ds).map (·.request.block.id) =
        done ++ [d.request.block.id] ++ ds.map (·.request.block.id) := by simp
    obtain ⟨hgood, hbad⟩ := h.execute_spec hran hahead channel
    by_cases hpass : Passes origin ctx disk d.request.block
    · obtain ⟨o, w', channel', host', hexecute, hran'⟩ := hgood hpass
      have hstep : w.runAll channel host ran (d :: ds) = w'.runAll channel' host' (ran + 1) ds := by
        rw [runAll, hexecute]
      rw [hsplit, hstep, List.forall_mem_cons]
      obtain ⟨hall, hnone⟩ := ih hran' hahead.tail channel' (ran + 1)
      exact ⟨fun hpasses => hall hpasses.2, fun hfail => hnone fun hpasses => hfail ⟨hpass, hpasses⟩⟩
    · obtain ⟨e, rest, hexecute⟩ := hbad hpass
      refine ⟨fun hpasses => absurd (hpasses d List.mem_cons_self) hpass, fun _ => ⟨e, rest, ?_⟩⟩
      rw [runAll, hexecute]

end Runs

/-! ## The answer of a query -/

/-- All blocks of a query pass if it can be evaluated and the rows of its stored
parts are as wide as they should be. -/
theorem passes_iff (h : plan.StandsFor child origin) :
    (∀ b ∈ plan.blocks, Passes origin ctx disk b) ↔
      (∃ r, child.relation? ctx disk = some r) ∧
        ∀ part ∈ child.stored, ∀ r, part.relation? ctx disk = some r → r.Wide := by
  constructor
  · intro hpasses
    constructor
    · obtain ⟨b, hb, hid⟩ := List.mem_map.mp h.wellFormed.terminal
      have hsome := (hpasses b hb).1
      rwa [hid, h.terminal] at hsome
    · intro part hpart
      obtain ⟨b, hb, hne, rfl⟩ := (h.stored part).mp hpart
      obtain ⟨c, hc, hread⟩ := h.wellFormed.isRead b hb hne
      exact (hpasses c hc).2 b.id.seq
        ((h.wellFormed.scanned c hc b.id.seq).mpr (List.mem_map_of_mem hread))
  · rintro ⟨⟨r, hr⟩, hwide⟩ b hb
    constructor
    · by_cases hterminal : b.id = plan.terminal
      · rw [hterminal, h.terminal]
        exact ⟨r, hr⟩
      · exact (Plan.inherited_relation? _ _).of_mem_stored ⟨r, hr⟩ _
          ((h.stored _).mpr ⟨b, hb, hterminal, rfl⟩)
    · intro seq hseq
      obtain ⟨i, hi, rfl⟩ := List.mem_map.mp ((h.wellFormed.scanned b hb seq).mp hseq)
      obtain ⟨c, hc, rfl⟩ := List.mem_map.mp (h.wellFormed.inputs b hb i hi)
      have hne : c.id ≠ plan.terminal := fun heq => h.wellFormed.terminalUnread b hb (heq ▸ hi)
      exact hwide _ ((h.stored _).mpr ⟨c, hc, hne, rfl⟩)

/-- A run of all blocks ends well if all of them pass.  Then the terminal output is the answer. -/
theorem Runs.runAll_order (h : Runs plan child origin ctx disk dir place) {ds : List Dispatched}
    (hds : ds.map (·.request.block) = plan.order) {host : Host} (hhost : host.disk = disk)
    (channel : Channel) (ran : ℕ) :
    ((∀ b ∈ plan.blocks, Passes origin ctx disk b) →
      ∃ n w channel' host',
        (start ctx dir).runAll channel host ran ds = (.ok n, w, channel', host') ∧
        ∃ o rows, w.output? plan.terminal.seq = some o ∧
          host'.disk.readRows o.fragment.path = .ok rows ∧
          child.relation? ctx disk = some ⟨child.schema, rows⟩) ∧
    (¬(∀ b ∈ plan.blocks, Passes origin ctx disk b) →
      ∃ e rest, (start ctx dir).runAll channel host ran ds = (.error e, rest)) := by
  obtain ⟨hperm, hordered⟩ := h.represents.wellFormed.order_spec
  have hmem : ∀ b, b ∈ plan.blocks ↔ ∃ d ∈ ds, d.request.block = b := by
    intro b
    rw [← hperm.mem_iff, ← hds, List.mem_map]
  rw [← hds] at hperm hordered
  have hstart : Ran origin ctx disk dir place [] (start ctx dir) host.disk := by
    rw [hhost]
    exact h.ran_start
  obtain ⟨hgood, hbad⟩ := h.runAll_spec hstart
    (ahead_of_perm h.represents.wellFormed hperm hordered) channel ran
  have hall : (∀ d ∈ ds, Passes origin ctx disk d.request.block) ↔
      ∀ b ∈ plan.blocks, Passes origin ctx disk b := by
    constructor
    · intro hpasses b hb
      obtain ⟨d, hd, rfl⟩ := (hmem b).mp hb
      exact hpasses d hd
    · exact fun hpasses d hd => hpasses _ ((hmem _).mpr ⟨d, hd, rfl⟩)
  rw [hall] at hgood hbad
  refine ⟨fun hsome => ?_, hbad⟩
  obtain ⟨n, w, channel', host', hrun, hran⟩ := hgood hsome
  refine ⟨n, w, channel', host', hrun, ?_⟩
  obtain ⟨b, hb, hid⟩ := List.mem_map.mp h.represents.wellFormed.terminal
  have hlast : plan.terminal ∈ [] ++ ds.map (·.request.block.id) := by
    obtain ⟨d, hd, rfl⟩ := (hmem b).mp hb
    rw [← hid]
    exact List.mem_map_of_mem hd
  obtain ⟨o, ho, hfragment⟩ := hran.output? _ hlast
  obtain ⟨rows, number, hfile, hrelation⟩ := hran.stored _ hlast
  rw [h.represents.terminal] at hrelation
  refine ⟨o, rows, ho, ?_, hrelation⟩
  rw [hfragment]
  have hroom := h.room.congr hran.directories
  have hfits := h.fits b hb
  rw [hid, h.represents.terminal] at hfits
  exact Disk.readRows_of_open (hfits _ hrelation) (hroom.open? hfile)

end Worker

end BlockQuery
