import BlockQuery.Proofs.Engine.Answer

/-!
# Blocks in another order

What a block writes depends on the tables and on the rows that its inputs have
written, and on nothing else that a run has done before.  If a run comes to its
end, so does a run of the same blocks in any other order that has inputs first,
and the outputs of the blocks are the same.
-/

namespace BlockQuery

/-! ## Paths of readers -/

namespace RowReader

/-- A reader that takes its file for another one. -/
def renamed (r : RowReader) (path : String) : RowReader := { r with path := path }

theorem take_renamed (r : RowReader) (path : String) (n : ℕ) :
    (r.renamed path).take n = ((r.take n).1, (r.take n).2.renamed path) := by
  obtain ⟨_, source, size, offset, stream, rest⟩ := r
  cases source with
  | error e => rfl
  | ok content =>
    by_cases hsize : size < stream + n
    · simp [take, renamed, hsize]
    · simp [take, renamed, hsize]

theorem next_renamed (r : RowReader) (path : String) :
    (r.renamed path).next = (r.next.1, r.next.2.renamed path) := by
  have hbody : ∀ (s : RowReader) (field : Bytes) (length : ℕ),
      (s.renamed path).readBody field length =
        ((s.readBody field length).1, (s.readBody field length).2.renamed path) := by
    intro s field length
    rw [readBody, readBody, take_renamed]
    rcases s.take (length - 4) with ⟨e | body, t⟩
    · rfl
    · dsimp only
      cases Record.decode (field ++ body) with
      | error e => rfl
      | ok found => rfl
  rw [next, next, take_renamed]
  have hsize : (r.renamed path).size = r.size := rfl
  have hoffset : (r.renamed path).offset = r.offset := rfl
  rw [hsize, hoffset]
  split
  · rfl
  · dsimp only
    split
    · rfl
    · rcases r.take 4 with ⟨e | field, t⟩
      · rfl
      · dsimp only
        split
        · rfl
        · exact hbody _ _ _

theorem readAll_renamed (r : RowReader) (path : String) (done : List Row) :
    ((r.renamed path).readAll done).1 = (r.readAll done).1 := by
  have hrenamed {r s : RowReader} {result} (hnext : r.next = (result, s)) :
      (r.renamed path).next = (result, s.renamed path) := by
    rw [next_renamed, hnext]
  induction r using next_induction generalizing done with
  | error r e s hnext => rw [readAll_of_error (hrenamed hnext), readAll_of_error hnext]
  | finished r s hnext => rw [readAll_of_end (hrenamed hnext), readAll_of_end hnext]
  | row r row s hnext ih =>
    rw [readAll_of_row (hrenamed hnext), readAll_of_row hnext]
    exact ih (row :: done)

end RowReader

/-- Files with the same content hold the same rows, whatever their paths are. -/
theorem Disk.rows?_eq_of_open {disk other : Disk} {path path' : String} {content : Bytes}
    (h : RowReader.open? disk path = .ok (.ofContent path content))
    (h' : RowReader.open? other path' = .ok (.ofContent path' content)) :
    other.rows? path' = disk.rows? path := by
  rw [rows?, rows?, reader?, reader?, h, h']
  exact congrArg Except.toOption ((RowReader.ofContent path content).readAll_renamed path' [])

namespace SameTables

variable {ctx ctx₁ ctx₂ : TaskContext} {disk disk₁ disk₂ : Disk}

theorem trans (h₁ : SameTables ctx disk ctx₁ disk₁) (h₂ : SameTables ctx₁ disk₁ ctx₂ disk₂) :
    SameTables ctx disk ctx₂ disk₂ :=
  ⟨h₂.tables.trans h₁.tables, h₂.indexes.trans h₁.indexes,
    fun t ht => (h₂.reader? t (h₁.tables ▸ ht)).trans (h₁.reader? t ht)⟩

theorem symm (h : SameTables ctx disk ctx₁ disk₁) : SameTables ctx₁ disk₁ ctx disk :=
  ⟨h.tables.symm, h.indexes.symm, fun t ht => (h.reader? t (h.tables ▸ ht)).symm⟩

end SameTables

namespace Worker

/-! ## What the relation of a block depends on -/

section Serving

/-- Whether a context has given tables, and of each block that a plan reads one output with given
rows. -/
structure Serves (results : UInt32 → List Row) (ctx : TaskContext) (disk : Disk) (p : Plan)
    (now : TaskContext) (after : Disk) : Prop where
  tables : SameTables ctx disk now after
  outputs : ∀ seq ∈ p.scannedBlocks, ∃ fragment, now.outputFragments seq = [fragment] ∧
    RowReader.open? after fragment.path =
      .ok (.ofContent fragment.path ((results seq).flatMap Record.encode))

/-- Whether a block has given rows wherever its inputs have. -/
def Yields (results : UInt32 → List Row) (ctx : TaskContext) (disk : Disk) (b : Block) : Prop :=
  ∀ now after, Serves results ctx disk b.plan now after →
    ∃ schema, b.plan.relation? now after = some ⟨schema, results b.id.seq⟩

variable {results results' : UInt32 → List Row} {ctx : TaskContext} {disk : Disk}

theorem Serves.congr {p : Plan} {now : TaskContext} {after : Disk}
    (h : Serves results ctx disk p now after)
    (hsame : ∀ seq ∈ p.scannedBlocks, results' seq = results seq) :
    Serves results' ctx disk p now after :=
  ⟨h.tables, fun seq hseq => (hsame seq hseq).symm ▸ h.outputs seq hseq⟩

/-- Tables and inputs fix the relation of a plan. -/
theorem Serves.relation?_eq {p : Plan} {now now' : TaskContext} {after after' : Disk}
    (h : Serves results ctx disk p now after) (h' : Serves results ctx disk p now' after') :
    p.relation? now' after' = p.relation? now after := by
  refine (h.tables.symm.trans h'.tables).relation?_congr fun seq hseq => ?_
  obtain ⟨f, hf, hopen⟩ := h.outputs seq hseq
  obtain ⟨f', hf', hopen'⟩ := h'.outputs seq hseq
  refine ⟨iff_of_false (by simp [hf']) (by simp [hf]), ?_⟩
  rw [hf, hf', RowSource.filesRows?, RowSource.filesRows?, Disk.rows?_eq_of_open hopen hopen']
  rfl

theorem Serves.yields {b : Block} {now : TaskContext} {after : Disk}
    (h : Serves results ctx disk b.plan now after) {r : Relation}
    (hr : b.plan.relation? now after = some r) (hrows : results b.id.seq = r.rows) :
    Yields results ctx disk b := by
  intro now' after' h'
  exact ⟨r.schema, by rw [h.relation?_eq h', hr, hrows]⟩

theorem Yields.congr {b : Block} (h : Yields results ctx disk b)
    (hinputs : ∀ seq ∈ b.plan.scannedBlocks, results' seq = results seq)
    (hself : results' b.id.seq = results b.id.seq) : Yields results' ctx disk b := by
  intro now after hserves
  rw [hself]
  exact h now after (hserves.congr fun seq hseq => (hinputs seq hseq).symm)

/-- Beside tables that read alike a block has the same rows. -/
theorem Yields.of_sameTables {b : Block} {other : Disk} (h : Yields results ctx disk b)
    (htables : SameTables ctx disk ctx other) : Yields results ctx other b :=
  fun now after hserves => h now after ⟨htables.trans hserves.tables, hserves.outputs⟩

end Serving

/-! ## Runs -/

/-- Where a worker can write the outputs of blocks beside the tables of a context. -/
structure Clear (ctx : TaskContext) (disk : Disk) (dir : String) (place : Place)
    (blocks : List Block) : Prop where
  room : Room disk dir place blocks
  apart : ∀ t ∈ ctx.tables, ∀ b ∈ blocks, disk.resolve t.2.path ≠ .ok (outputPlace place b.id.seq)

/-- What a worker and its disk have come to after some blocks, each of which wrote given rows. -/
structure Wrote (results : UInt32 → List Row) (ctx : TaskContext) (disk : Disk) (dir : String)
    (place : Place) (done : List BlockId) (w : Worker) (now : Disk) : Prop
    extends Kept ctx disk dir place done w now where
  counted : ∀ id ∈ done,
    w.output? id.seq = some ⟨id.seq, (results id.seq).length, outputFragment dir id.seq⟩
  stored : ∀ id ∈ done, ∃ number, now.get? (outputPlace place id.seq) =
    some (.file number ((results id.seq).flatMap Record.encode))

namespace Wrote

variable {results : UInt32 → List Row} {plan : MasterPlan} {ctx : TaskContext} {disk : Disk}
  {dir : String} {place : Place} {w : Worker} {done : List BlockId}

/-- While the file of a block is written, its plan finds the tables and what its inputs wrote. -/
theorem serves {now after : Disk} (h : Wrote results ctx disk dir place done w now)
    (hwell : plan.WellFormed) (hclear : Clear ctx disk dir place plan.blocks) {d : Dispatched}
    {ds : List Dispatched} (hahead : Ahead plan done (d :: ds))
    (hsame : Disk.SameDirectories now after)
    (hget : ∀ q, q ≠ outputPlace place d.request.block.id.seq → after.get? q = now.get? q) :
    Serves results ctx disk d.request.block.plan w.ctx after := by
  obtain ⟨hb, hinputs, -⟩ := hahead.head
  refine ⟨h.sameTables hclear.apart hahead.ran hb hsame hget, ?_⟩
  intro seq hseq
  obtain ⟨i, hi, rfl⟩ := List.mem_map.mp ((hwell.scanned _ hb seq).mp hseq)
  obtain ⟨number, hfile⟩ := h.stored i (hinputs i hi)
  have hplace : outputPlace place i.seq ≠ outputPlace place d.request.block.id.seq :=
    fun heq => hahead.seq_ne hwell i (hinputs i hi) (outputPlace_inj heq).symm
  exact ⟨_, h.outputs i (hinputs i hi),
    (hclear.room.congr (h.directories.trans hsame)).open? ((hget _ hplace).trans hfile)⟩

/-- A worker that has registered the output of one more block. -/
theorem register {now later : Disk} (h : Wrote results ctx disk dir place done w now)
    {id : BlockId} (hfresh : ∀ i ∈ done, id.seq ≠ i.seq) {rows : List Row}
    (hgains : now.Gains (outputPlace place id.seq) rows later)
    (hsame : Disk.SameDirectories now later) :
    Wrote (Function.update results id.seq rows) ctx disk dir place (done ++ [id])
      (w.register ⟨id.seq, rows.length, outputFragment dir id.seq⟩) later := by
  have hold : ∀ i ∈ done, Function.update results id.seq rows i.seq = results i.seq :=
    fun i hi => Function.update_of_ne (hfresh i hi).symm rows results
  refine { h.toKept.register hfresh hgains hsame rows.length with counted := ?_, stored := ?_ }
  · intro i hi
    rw [output?_register]
    rcases List.mem_append.mp hi with hi | hi
    · rw [if_neg (hfresh i hi), hold i hi]
      exact h.counted i hi
    · obtain rfl := List.mem_singleton.mp hi
      rw [if_pos rfl, Function.update_self]
  · intro i hi
    rcases List.mem_append.mp hi with hi | hi
    · rw [hgains.get?_of_ne _ fun heq => hfresh i hi (outputPlace_inj heq).symm, hold i hi]
      exact h.stored i hi
    · obtain rfl := List.mem_singleton.mp hi
      rw [Function.update_self]
      exact hgains.get?_self

/-- A worker runs a block whose plan has a relation where its inputs are served, and then the block
has written the rows of the relation; on any other block the worker fails. -/
theorem execute_spec {host : Host} (h : Wrote results ctx disk dir place done w host.disk)
    (hwell : plan.WellFormed) (hclear : Clear ctx disk dir place plan.blocks) {d : Dispatched}
    {ds : List Dispatched} (hahead : Ahead plan done (d :: ds)) (channel : Channel) :
    ∃ after, Serves results ctx disk d.request.block.plan w.ctx after ∧
      (∀ r, d.request.block.plan.relation? w.ctx after = some r → ∃ o w' channel' host',
        w.execute d channel host = (.ok o, w', channel', host') ∧
        Wrote (Function.update results d.request.block.id.seq r.rows) ctx disk dir place
          (done ++ [d.request.block.id]) w' host'.disk) ∧
      (d.request.block.plan.relation? w.ctx after = none → ∃ e rest,
        w.execute d channel host = (.error e, rest)) := by
  obtain ⟨after, hopened, hget, hgood, hbad⟩ := execute_of_room
    (hclear.room.congr h.directories) h.workDir h.cancelAt hahead.head.1 channel
  refine ⟨after, h.serves hwell hclear hahead hopened hget, fun r hr => ?_, hbad⟩
  obtain ⟨channel', host', hexecute, hgains, hsame⟩ := hgood r hr
  exact ⟨_, _, _, _, hexecute, h.register (hahead.seq_ne hwell) hgains hsame⟩

/-- If a run came to its end, each of its blocks has rows that its tables and inputs fix, and it has
written them.  Induct on the blocks; those that come later change neither the inputs of a block nor
its own rows. -/
theorem of_runAll {host host' : Host} (h : Wrote results ctx disk dir place done w host.disk)
    (hwell : plan.WellFormed) (hclear : Clear ctx disk dir place plan.blocks)
    {ds : List Dispatched} (hahead : Ahead plan done ds) {channel channel' : Channel}
    {ran n : ℕ} {w' : Worker}
    (hrun : w.runAll channel host ran ds = (.ok n, w', channel', host')) :
    ∃ results', (∀ id ∈ done, results' id.seq = results id.seq) ∧
      Wrote results' ctx disk dir place (done ++ ds.map (·.request.block.id)) w' host'.disk ∧
      ∀ d ∈ ds, Yields results' ctx disk d.request.block := by
  induction ds generalizing results done w channel host ran with
  | nil =>
    cases hrun
    rw [List.map_nil, List.append_nil]
    exact ⟨results, fun _ _ => rfl, h, fun _ hd => (List.not_mem_nil hd).elim⟩
  | cons d ds ih =>
    obtain ⟨after, hserves, hgood, hbad⟩ := h.execute_spec hwell hclear hahead channel
    cases hrelation : d.request.block.plan.relation? w.ctx after with
    | none =>
      obtain ⟨e, rest, hexecute⟩ := hbad hrelation
      rw [runAll, hexecute] at hrun
      cases hrun
    | some r =>
      obtain ⟨o, w₁, channel₁, host₁, hexecute, hwrote⟩ := hgood r hrelation
      rw [runAll, hexecute] at hrun
      obtain ⟨results', hold, hlast, hyields⟩ := ih hwrote hahead.tail hrun
      have hself : results' d.request.block.id.seq = r.rows := by
        rw [hold _ (List.mem_append_right _ (List.mem_singleton_self _)), Function.update_self]
      have hkept : ∀ id ∈ done, results' id.seq = results id.seq := by
        intro id hid
        rw [hold id (List.mem_append_left _ hid),
          Function.update_of_ne (hahead.seq_ne hwell id hid).symm]
      have hfirst : Yields results' ctx disk d.request.block := by
        -- What serves the block now still serves it at the end: its inputs have run already.
        have hinputs : ∀ seq ∈ d.request.block.plan.scannedBlocks, results' seq = results seq := by
          intro seq hseq
          obtain ⟨hb, hinputs, -⟩ := hahead.head
          obtain ⟨i, hi, rfl⟩ := List.mem_map.mp ((hwell.scanned _ hb seq).mp hseq)
          exact hkept i (hinputs i hi)
        exact (hserves.congr hinputs).yields hrelation hself
      rw [List.append_assoc, List.singleton_append] at hlast
      exact ⟨results', hkept, hlast, List.forall_mem_cons.mpr ⟨hfirst, hyields⟩⟩

/-- A run of blocks whose rows are fixed comes to its end, and each of them has written its rows. -/
theorem runAll {host : Host} (h : Wrote results ctx disk dir place done w host.disk)
    (hwell : plan.WellFormed) (hclear : Clear ctx disk dir place plan.blocks)
    {ds : List Dispatched} (hahead : Ahead plan done ds)
    (hyields : ∀ d ∈ ds, Yields results ctx disk d.request.block) (channel : Channel) (ran : ℕ) :
    ∃ n w' channel' host', w.runAll channel host ran ds = (.ok n, w', channel', host') ∧
      Wrote results ctx disk dir place (done ++ ds.map (·.request.block.id)) w' host'.disk := by
  induction ds generalizing done w channel host ran with
  | nil => exact ⟨ran, w, channel, host, rfl, by rwa [List.map_nil, List.append_nil]⟩
  | cons d ds ih =>
    obtain ⟨hfirst, hyields⟩ := List.forall_mem_cons.mp hyields
    obtain ⟨after, hserves, hgood, -⟩ := h.execute_spec hwell hclear hahead channel
    obtain ⟨schema, hrelation⟩ := hfirst w.ctx after hserves
    obtain ⟨o, w₁, channel₁, host₁, hexecute, hwrote⟩ := hgood _ hrelation
    rw [Function.update_eq_self] at hwrote
    obtain ⟨n, w', channel', host', hrun, hlast⟩ := ih hwrote hahead.tail hyields channel₁ (ran + 1)
    rw [List.append_assoc, List.singleton_append] at hlast
    refine ⟨n, w', channel', host', ?_, hlast⟩
    rw [Worker.runAll, hexecute]
    exact hrun

/-- The file of a block that ran is found under the path that its output tells. -/
theorem read_output {now : Disk} {blocks : List Block}
    (h : Wrote results ctx disk dir place done w now) (hclear : Clear ctx disk dir place blocks)
    {id : BlockId} (hid : id ∈ done) :
    now.read (outputFragment dir id.seq).path = .ok ((results id.seq).flatMap Record.encode) := by
  obtain ⟨number, hfile⟩ := h.stored id hid
  have hresolve := (hclear.room.congr h.directories).resolve id.seq
  have hentry : now.openEntry (outputFragment dir id.seq).path =
      .ok (.file number ((results id.seq).flatMap Record.encode)) :=
    Disk.openEntry_eq_ok.mpr ⟨_, hresolve, hfile⟩
  rw [Disk.read, hentry]
  rfl

end Wrote

theorem wrote_start (results : UInt32 → List Row) {ctx : TaskContext} (hctx : ctx.outputs = [])
    (disk : Disk) (dir : String) (place : Place) :
    Wrote results ctx disk dir place [] (start ctx dir) disk :=
  { kept_start hctx with
    counted := fun _ hid => (List.not_mem_nil hid).elim
    stored := fun _ hid => (List.not_mem_nil hid).elim }

/-- A run of all blocks of a plan begins with making the directory of the outputs. -/
theorem runAll_begin {plan : MasterPlan} (hwell : plan.WellFormed) {ctx : TaskContext} {host : Host}
    {made : Disk} {dir : String} {place : Place}
    (hmade : host.disk.createDirectories dir = (.ok (), made))
    (hclear : Clear ctx made dir place plan.blocks) {ds : List Dispatched}
    (hperm : (ds.map (·.request.block)).Perm plan.blocks) (channel : Channel) (ran : ℕ) :
    (start ctx dir).runAll channel host ran ds =
      (start ctx dir).runAll channel { host with disk := made } ran ds := by
  have hdisk : (host.disk.createDirectories dir).2 = made := by rw [hmade]
  have hroom : Room (host.disk.createDirectories dir).2 dir place plan.blocks :=
    hdisk.symm ▸ hclear.room
  have hne : ds ≠ [] := by
    rintro rfl
    obtain ⟨b, hb, -⟩ := List.mem_map.mp hwell.terminal
    exact List.not_mem_nil (hperm.mem_iff.mpr hb)
  rw [runAll_made hroom (by rw [hmade]) hne, hdisk]

/-- The order of independent blocks does not matter.  If a worker comes to the end of all blocks of a
plan in one order that has inputs first, so does a worker with the same tables in any other such
order, and every block has written the same file and the same number of rows. -/
theorem runAll_reordered {query : QueryId} {blocks : List Block} {terminal : BlockId}
    {plan : MasterPlan} (hplan : MasterPlan.ofBlocks query blocks terminal = .ok plan)
    {ctx : TaskContext} (hctx : ctx.outputs = []) {host₁ host₂ : Host} {made₁ made₂ : Disk}
    {dir₁ dir₂ : String} {place₁ place₂ : Place}
    (hmade₁ : host₁.disk.createDirectories dir₁ = (.ok (), made₁))
    (hmade₂ : host₂.disk.createDirectories dir₂ = (.ok (), made₂))
    (hclear₁ : Clear ctx made₁ dir₁ place₁ plan.blocks)
    (hclear₂ : Clear ctx made₂ dir₂ place₂ plan.blocks)
    (htables : ∀ t ∈ ctx.tables, made₂.reader? t.2.path = made₁.reader? t.2.path)
    {ds₁ ds₂ : List Dispatched} (hperm₁ : (ds₁.map (·.request.block)).Perm plan.blocks)
    (hperm₂ : (ds₂.map (·.request.block)).Perm plan.blocks)
    (hfirst₁ : MasterPlan.InputsFirst [] (ds₁.map (·.request.block)))
    (hfirst₂ : MasterPlan.InputsFirst [] (ds₂.map (·.request.block)))
    (channel₁ channel₂ : Channel) (ran₁ ran₂ : ℕ) {n₁ : ℕ} {w₁ : Worker} {channel₁' : Channel}
    {host₁' : Host}
    (hrun₁ : (start ctx dir₁).runAll channel₁ host₁ ran₁ ds₁ =
      (.ok n₁, w₁, channel₁', host₁')) :
    ∃ n₂ w₂ channel₂' host₂',
      (start ctx dir₂).runAll channel₂ host₂ ran₂ ds₂ = (.ok n₂, w₂, channel₂', host₂') ∧
      ∀ b ∈ plan.blocks, ∃ o₁ o₂ content,
        w₁.output? b.id.seq = some o₁ ∧ w₂.output? b.id.seq = some o₂ ∧ o₁.rows = o₂.rows ∧
        host₁'.disk.read o₁.fragment.path = .ok content ∧
        host₂'.disk.read o₂.fragment.path = .ok content := by
  obtain ⟨hwell, -⟩ := MasterPlan.wellFormed_of_ofBlocks hplan
  have hahead₁ := ahead_of_perm hwell hperm₁ hfirst₁
  have hahead₂ := ahead_of_perm hwell hperm₂ hfirst₂
  have hblock : ∀ {ds : List Dispatched}, (ds.map (·.request.block)).Perm plan.blocks →
      ∀ b ∈ plan.blocks, ∃ d ∈ ds, d.request.block = b :=
    fun hperm b hb => List.mem_map.mp (hperm.mem_iff.mpr hb)
  rw [runAll_begin hwell hmade₁ hclear₁ hperm₁] at hrun₁
  rw [runAll_begin hwell hmade₂ hclear₂ hperm₂]
  -- No order is turned into the other one step by step, since a consumer fails before its inputs.
  -- The first run fixes the rows of all blocks, and the second one is compared with those.
  obtain ⟨results, -, hwrote₁, hyields⟩ :=
    (wrote_start (fun _ => []) hctx made₁ dir₁ place₁).of_runAll hwell hclear₁ hahead₁ hrun₁
  have hyields₂ : ∀ d ∈ ds₂, Yields results ctx made₂ d.request.block := by
    intro d hd
    obtain ⟨c, hc, heq⟩ := hblock hperm₁ _ (hahead₂.blocks d hd)
    rw [← heq]
    exact (hyields c hc).of_sameTables ⟨rfl, rfl, htables⟩
  have hstart₂ : Wrote results ctx made₂ dir₂ place₂ [] (start ctx dir₂)
      ({ host₂ with disk := made₂ } : Host).disk := wrote_start results hctx made₂ dir₂ place₂
  obtain ⟨n₂, w₂, channel₂', host₂', hrun₂, hwrote₂⟩ :=
    hstart₂.runAll hwell hclear₂ hahead₂ hyields₂ channel₂ ran₂
  refine ⟨n₂, w₂, channel₂', host₂', hrun₂, fun b hb => ?_⟩
  have hid : ∀ {ds : List Dispatched}, (ds.map (·.request.block)).Perm plan.blocks →
      b.id ∈ ds.map (·.request.block.id) := by
    intro ds hperm
    obtain ⟨d, hd, rfl⟩ := hblock hperm b hb
    exact List.mem_map_of_mem hd
  exact ⟨_, _, _, hwrote₁.counted b.id (hid hperm₁), hwrote₂.counted b.id (hid hperm₂), rfl,
    hwrote₁.read_output hclear₁ (hid hperm₁), hwrote₂.read_output hclear₂ (hid hperm₂)⟩

/-! ## A table crossed with itself -/

namespace Crossing

def query : QueryId := QueryId.ofNat 1

def id (seq : UInt32) : BlockId := ⟨query, seq⟩

/-- A block that reads the table. -/
def reader (seq : UInt32) : Block :=
  ⟨id seq, [], .hash [], none, .scan ⟨.table "t", Sample.wide, none, none⟩⟩

/-- The block that crosses what the other two have read. -/
def crossing : Block :=
  ⟨id 3, [id 1, id 2], .none, none,
    .joining (.scanBlock 1 Sample.wide none) (.scanBlock 2 Sample.wide none) .cross none⟩

def dispatched (b : Block) : Dispatched := ⟨⟨0, b.id⟩, ⟨b, b.id == id 3⟩⟩

/-- What the blocks write. -/
def results (seq : UInt32) : List Row :=
  if seq = 3 then [Sample.row ++ Sample.row] else [Sample.row]

theorem exists_ofBlocks :
    ∃ plan, MasterPlan.ofBlocks query [reader 1, reader 2, crossing] (id 3) = .ok plan := by
  have hrun : (MasterPlan.ofBlocks query [reader 1, reader 2, crossing] (id 3)).toOption.isSome =
      true := by decide +kernel
  obtain ⟨plan, hplan⟩ := Option.isSome_iff_exists.mp hrun
  exact ⟨plan, Except.toOption_eq_some.mp hplan⟩

theorem rows?_of_open {now : Disk} {path : String}
    (h : RowReader.open? now path = .ok (.ofContent path ([Sample.row].flatMap Record.encode))) :
    now.rows? path = some [Sample.row] := by
  refine Disk.rows?_of_open ?_ h
  intro row hrow
  rw [List.mem_singleton.mp hrow]
  exact Sample.fits_row

/-- The blocks that read the table write its row. -/
theorem yields_reader (seq : UInt32) (hseq : seq ≠ 3) :
    Yields results Sample.context (Sample.disk.createDirectories "out").2 (reader seq) := by
  intro now after hserves
  have hready := Sample.ready [reader seq]
  have hrelation : (reader seq).plan.relation? Sample.context Sample.disk =
      some ⟨Sample.wide, [Sample.row]⟩ := by
    have hrows : RowSource.filesRows? Sample.disk [⟨"t", "t.rows"⟩] = some [Sample.row] := by
      have hopen : Sample.disk.rows? "t.rows" = some [Sample.row] :=
        rows?_of_open (RowReader.open?_of_file Sample.resolve_disk rfl)
      rw [RowSource.filesRows?, RowSource.filesRows?, hopen]
      rfl
    have hscan : Operator.ofScan Sample.context ⟨.table "t", Sample.wide, none, none⟩ none =
        Operator.scanOfFiles Sample.wide [⟨"t", "t.rows"⟩] none := rfl
    rw [reader, Plan.relation?_scan, hscan, Operator.relation?_scanOfFiles, hrows]
    rfl
  have hresults : results (reader seq).id.seq = [Sample.row] := if_neg hseq
  refine ⟨Sample.wide, ?_⟩
  rw [hserves.tables.relation?_congr (fun seq hseq => (List.not_mem_nil hseq).elim),
    hready.relation?_eq, hrelation, hresults]

/-- The block that reads the other two writes their rows side by side. -/
theorem yields_crossing :
    Yields results Sample.context (Sample.disk.createDirectories "out").2 crossing := by
  intro now after hserves
  have hscan : ∀ seq ∈ crossing.plan.scannedBlocks, seq ≠ 3 →
      (Plan.scanBlock seq Sample.wide none).relation? now after =
        some ⟨Sample.wide, [Sample.row]⟩ := by
    intro seq hseq hne
    obtain ⟨fragment, hfragment, hopen⟩ := hserves.outputs seq hseq
    rw [results, if_neg hne] at hopen
    rw [Plan.scanBlock, Plan.relation?_scan,
      Operator.relation?_ofScan_block now after hfragment, rows?_of_open hopen]
    rfl
  refine ⟨Sample.wide ++ Sample.wide, ?_⟩
  rw [crossing, Plan.joining, Plan.relation?_join, hscan 1 (by decide) (by decide),
    hscan 2 (by decide) (by decide)]
  rfl

end Crossing

/-- Of three blocks two read a table, and either of them can run first. -/
theorem runAll_reordered_crossing :
    ∃ plan, MasterPlan.ofBlocks Crossing.query
        [Crossing.reader 1, Crossing.reader 2, Crossing.crossing] (Crossing.id 3) = .ok plan ∧
      ∃ n₁ w₁ channel₁ host₁ n₂ w₂ channel₂ host₂,
        (start Sample.context "out").runAll .start Sample.host 0
          ([Crossing.reader 1, Crossing.reader 2, Crossing.crossing].map Crossing.dispatched) =
            (.ok n₁, w₁, channel₁, host₁) ∧
        (start Sample.context "out").runAll .start Sample.host 0
          ([Crossing.reader 2, Crossing.reader 1, Crossing.crossing].map Crossing.dispatched) =
            (.ok n₂, w₂, channel₂, host₂) ∧
        ∃ o₁ o₂ content, w₁.output? 3 = some o₁ ∧ w₂.output? 3 = some o₂ ∧ o₁.rows = o₂.rows ∧
          host₁.disk.read o₁.fragment.path = .ok content ∧
          host₂.disk.read o₂.fragment.path = .ok content := by
  obtain ⟨plan, hplan⟩ := Crossing.exists_ofBlocks
  obtain ⟨hwell, -, -, hperm⟩ := MasterPlan.wellFormed_of_ofBlocks hplan
  have hready := Sample.ready plan.blocks
  obtain ⟨made, hmade⟩ : ∃ made, Sample.host.disk.createDirectories "out" = (.ok (), made) :=
    ⟨_, Sample.createDirectories_disk⟩
  have hdisk : (Sample.disk.createDirectories "out").2 = made := congrArg Prod.snd hmade
  have hclear : Clear Sample.context made "out" [".", "out"] plan.blocks :=
    hdisk ▸ ⟨hready.room, hready.apart_made⟩
  have hperm₁ : (([Crossing.reader 1, Crossing.reader 2, Crossing.crossing].map
      Crossing.dispatched).map (·.request.block)).Perm plan.blocks := hperm.symm
  have hperm₂ : (([Crossing.reader 2, Crossing.reader 1, Crossing.crossing].map
      Crossing.dispatched).map (·.request.block)).Perm plan.blocks :=
    (List.Perm.swap _ _ _).trans hperm.symm
  have hfirst₁ : MasterPlan.InputsFirst []
      [Crossing.reader 1, Crossing.reader 2, Crossing.crossing] :=
    ⟨by decide, by decide, by decide, trivial⟩
  have hfirst₂ : MasterPlan.InputsFirst []
      [Crossing.reader 2, Crossing.reader 1, Crossing.crossing] :=
    ⟨by decide, by decide, by decide, trivial⟩
  obtain ⟨n₁, w₁, channel₁, host₁, hrun⟩ : ∃ n w channel' host',
      (start Sample.context "out").runAll .start Sample.host 0
        ([Crossing.reader 1, Crossing.reader 2, Crossing.crossing].map Crossing.dispatched) =
          (.ok n, w, channel', host') := by
    have hstart : Wrote Crossing.results Sample.context made "out" [".", "out"] []
        (start Sample.context "out") ({ Sample.host with disk := made } : Host).disk :=
      wrote_start Crossing.results rfl made "out" [".", "out"]
    have hyields : ∀ d ∈ [Crossing.reader 1, Crossing.reader 2, Crossing.crossing].map
        Crossing.dispatched, Yields Crossing.results Sample.context made d.request.block := by
      rw [← hdisk, List.forall_mem_map, List.forall_mem_cons, List.forall_mem_cons,
        List.forall_mem_singleton]
      exact ⟨Crossing.yields_reader 1 (by decide), Crossing.yields_reader 2 (by decide),
        Crossing.yields_crossing⟩
    obtain ⟨n, w, channel', host', hrun, -⟩ :=
      hstart.runAll hwell hclear (ahead_of_perm hwell hperm₁ hfirst₁) hyields .start 0
    exact ⟨n, w, channel', host', (runAll_begin hwell hmade hclear hperm₁ .start 0).trans hrun⟩
  obtain ⟨n₂, w₂, channel₂, host₂, hrun₂, houtputs⟩ :=
    runAll_reordered hplan rfl hmade hmade hclear hclear (fun _ _ => rfl) hperm₁ hperm₂ hfirst₁
      hfirst₂ .start .start 0 0 hrun
  exact ⟨plan, hplan, n₁, w₁, channel₁, host₁, n₂, w₂, channel₂, host₂, hrun, hrun₂,
    houtputs Crossing.crossing (hperm.mem_iff.mpr (by simp))⟩

end Worker

end BlockQuery
