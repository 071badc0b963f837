import BlockQuery.Index.Writer
import BlockQuery.Proofs.Engine.Run

/-!
# The answer of a query in blocks

A query that runs in blocks gives the answer it has in one piece.  It also needs
all rows that are handed from block to block to be as wide as their schemas say,
which an index scan does not look at.
-/

namespace BlockQuery.Worker

/-- What a worker needs to run blocks without a failure of the disk: tables that can be
opened, a directory that can be made, and room in it beside the tables. -/
structure Ready (ctx : TaskContext) (disk : Disk) (dir : String) (place : Place)
    (blocks : List Block) : Prop where
  noOutputs : ctx.outputs = []
  opens : ∀ t ∈ ctx.tables, ∃ r, disk.reader? t.2.path = some r
  apart : ∀ t ∈ ctx.tables, ∀ b ∈ blocks, disk.resolve t.2.path ≠ .ok (outputPlace place b.id.seq)
  made : (disk.createDirectories dir).1 = .ok ()
  room : Room (disk.createDirectories dir).2 dir place blocks

section Answer

variable {ctx : TaskContext} {disk : Disk} {dir : String} {place : Place} {blocks : List Block}

namespace Ready

/-- Making the directory of the outputs does not change the tables. -/
theorem sameTables (h : Ready ctx disk dir place blocks) :
    SameTables ctx disk ctx (disk.createDirectories dir).2 := by
  refine ⟨rfl, rfl, ?_⟩
  intro t ht
  obtain ⟨r, hr⟩ := h.opens t ht
  rw [hr, Disk.reader?_of_extends (Disk.extends_createDirectories disk dir) hr]

theorem relation?_eq (h : Ready ctx disk dir place blocks) (p : Plan) :
    p.relation? ctx (disk.createDirectories dir).2 = p.relation? ctx disk :=
  h.sameTables.relation?_eq h.noOutputs h.noOutputs p

theorem apart_made (h : Ready ctx disk dir place blocks) :
    ∀ t ∈ ctx.tables, ∀ b ∈ blocks,
      (disk.createDirectories dir).2.resolve t.2.path ≠ .ok (outputPlace place b.id.seq) := by
  intro t ht b hb
  obtain ⟨r, hr⟩ := h.opens t ht
  cases hentry : disk.openEntry t.2.path with
  | error e =>
    rw [Disk.reader?, RowReader.open?, hentry] at hr
    cases hr
  | ok entry =>
    obtain ⟨q, hq, _⟩ := Disk.openEntry_eq_ok.mp hentry
    have hmade := Disk.resolve_of_directories
      (fun q => Disk.extends_createDirectories disk dir q .directory) hq
    rw [hmade, ← hq]
    exact h.apart t ht b hb

end Ready

/-- The first block makes the directory, if it is not there yet. -/
theorem runAll_made {host : Host} (hroom : Room (host.disk.createDirectories dir).2 dir place blocks)
    (hmade : (host.disk.createDirectories dir).1 = .ok ()) {ds : List Dispatched} (hds : ds ≠ [])
    (channel : Channel) (ran : ℕ) :
    (start ctx dir).runAll channel host ran ds =
      (start ctx dir).runAll channel { host with disk := (host.disk.createDirectories dir).2 } ran
        ds := by
  obtain ⟨d, rest, rfl⟩ := List.exists_cons_of_ne_nil hds
  have hagain := hroom.leadsTo.createDirectories_of_leadsTo
  have hfirst : host.disk.createDirectories dir =
      (.ok (), (host.disk.createDirectories dir).2) := by rw [← hmade]
  generalize (host.disk.createDirectories dir).2 = made at hagain hfirst
  have hexecute : (start ctx dir).execute d channel host =
      (start ctx dir).execute d channel { host with disk := made } := by
    have hdir : (start ctx dir).workDir = dir := rfl
    rw [execute, execute]
    simp only [hdir, hfirst, hagain]
  rw [runAll, runAll, hexecute]

/-- A run of all blocks ends well if all of them pass. -/
theorem Ready.runAll_represents {plan : MasterPlan} {child : Plan} {origin : UInt32 → Plan}
    (hrepresents : plan.Represents child origin)
    (hbuilt : ∀ b ∈ plan.blocks, (origin b.id.seq).Built) {host : Host}
    (hready : Ready ctx host.disk dir place plan.blocks)
    (hfits : ∀ b ∈ plan.blocks, ∀ rows, (origin b.id.seq).answer ctx host.disk = .ok rows →
      ∀ row ∈ rows, row.Fits)
    {ds : List Dispatched} (hds : ds.map (·.request.block) = plan.order) (channel : Channel)
    (ran : ℕ) :
    ((∀ b ∈ plan.blocks, Passes origin ctx host.disk b) →
      ∃ n w channel' host',
        (start ctx dir).runAll channel host ran ds = (.ok n, w, channel', host') ∧
        ∃ o rows, w.output? plan.terminal.seq = some o ∧
          host'.disk.readRows o.fragment.path = .ok rows ∧
          child.relation? ctx host.disk = some ⟨child.schema, rows⟩) ∧
    (¬(∀ b ∈ plan.blocks, Passes origin ctx host.disk b) →
      ∃ e rest, (start ctx dir).runAll channel host ran ds = (.error e, rest)) := by
  have hruns : Runs plan child origin ctx (host.disk.createDirectories dir).2 dir place := by
    refine ⟨hrepresents, hready.room, hready.noOutputs, hready.apart_made, ?_, ?_⟩
    · intro b hb r hr
      exact (hbuilt b hb).schema_eq hr
    · intro b hb r hr
      rw [hready.relation?_eq] at hr
      exact hfits b hb r.rows ((Plan.answer_ok_iff ctx host.disk).mpr ⟨r.schema, hr⟩)
  have hne : ds ≠ [] := by
    rintro rfl
    have hlength := hrepresents.wellFormed.order_spec.1.length_eq
    rw [← hds] at hlength
    obtain ⟨b, hb, _⟩ := List.mem_map.mp hrepresents.wellFormed.terminal
    exact List.not_mem_nil (List.eq_nil_of_length_eq_zero hlength.symm ▸ hb)
  rw [runAll_made hready.room hready.made hne]
  have hrun := hruns.runAll_order hds
    (show ({ host with disk := (host.disk.createDirectories dir).2 } : Host).disk =
      (host.disk.createDirectories dir).2 from rfl) channel ran
  simpa only [Passes, hready.relation?_eq] using hrun

/-- The blocks of a partition stand for the query and its stored parts. -/
theorem origin_mem_stored {plan : MasterPlan} {child : Plan} {origin : UInt32 → Plan}
    (h : plan.StandsFor child origin) {b : Block} (hb : b ∈ plan.blocks) :
    origin b.id.seq ∈ child :: child.stored := by
  by_cases hterminal : b.id = plan.terminal
  · rw [hterminal, h.terminal]
    exact List.mem_cons_self
  · exact List.mem_cons_of_mem _ ((h.stored _).mpr ⟨b, hb, hterminal, rfl⟩)

/-- A run of all blocks ends well if the query has a relation and the rows of its stored parts
are as wide as they should be. -/
theorem Ready.runAll_order {query : QueryId} {child : Plan} {plan : MasterPlan}
    (hplan : MasterPlan.ofPlan none query (.root child) = .ok plan) (hbuilt : child.Built)
    {host : Host} (hready : Ready ctx host.disk dir place plan.blocks)
    (hfits : ∀ part ∈ child :: child.stored, ∀ rows, part.answer ctx host.disk = .ok rows →
      ∀ row ∈ rows, row.Fits)
    {ds : List Dispatched} (hds : ds.map (·.request.block) = plan.order) (channel : Channel)
    (ran : ℕ) :
    ((∃ r, child.relation? ctx host.disk = some r) ∧
        (∀ part ∈ child.stored, ∀ r, part.relation? ctx host.disk = some r → r.Wide) →
      ∃ n w channel' host',
        (start ctx dir).runAll channel host ran ds = (.ok n, w, channel', host') ∧
        ∃ o rows, w.output? plan.terminal.seq = some o ∧
          host'.disk.readRows o.fragment.path = .ok rows ∧
          child.relation? ctx host.disk = some ⟨child.schema, rows⟩) ∧
    (¬((∃ r, child.relation? ctx host.disk = some r) ∧
        ∀ part ∈ child.stored, ∀ r, part.relation? ctx host.disk = some r → r.Wide) →
      ∃ e rest, (start ctx dir).runAll channel host ran ds = (.error e, rest)) := by
  obtain ⟨origin, horigin⟩ := MasterPlan.exists_standsFor hplan
  rw [← passes_iff horigin]
  apply hready.runAll_represents horigin.toRepresents _ _ hds
  · intro b hb
    rcases List.mem_cons.mp (origin_mem_stored horigin hb) with heq | hstored
    · rw [heq]
      exact hbuilt
    · exact hbuilt.of_mem_stored _ hstored
  · exact fun b hb => hfits _ (origin_mem_stored horigin hb)

/-- The blocks of a query run to their end if the query has an answer and all rows handed from
block to block are as wide as their schemas.  Then the output of the terminal block is the
answer. -/
theorem runAll_order_ok_iff {query : QueryId} {child : Plan} {plan : MasterPlan}
    (hplan : MasterPlan.ofPlan none query (.root child) = .ok plan) (hbuilt : child.Built)
    {host : Host} (hready : Ready ctx host.disk dir place plan.blocks)
    (hfits : ∀ part ∈ child :: child.stored, ∀ rows, part.answer ctx host.disk = .ok rows →
      ∀ row ∈ rows, row.Fits)
    {ds : List Dispatched} (hds : ds.map (·.request.block) = plan.order) (channel : Channel)
    (ran : ℕ) :
    ((∃ n, ((start ctx dir).runAll channel host ran ds).1 = .ok n) ↔
      (∃ rows, (Plan.root child).answer ctx host.disk = .ok rows) ∧
        ∀ part ∈ child.stored, ∀ rows, part.answer ctx host.disk = .ok rows →
          ∀ row ∈ rows, row.length = part.schema.length) ∧
    ∀ n, ((start ctx dir).runAll channel host ran ds).1 = .ok n →
      ∃ o rows, ((start ctx dir).runAll channel host ran ds).2.1.output? plan.terminal.seq = some o ∧
        (Plan.root child).answer ctx host.disk = .ok rows ∧
        ((start ctx dir).runAll channel host ran ds).2.2.2.disk.readRows o.fragment.path =
          .ok rows := by
  obtain ⟨hgood, hbad⟩ := hready.runAll_order hplan hbuilt hfits hds channel ran
  have hwide : (∀ part ∈ child.stored, ∀ rows, part.answer ctx host.disk = .ok rows →
      ∀ row ∈ rows, row.length = part.schema.length) ↔
      ∀ part ∈ child.stored, ∀ r, part.relation? ctx host.disk = some r → r.Wide :=
    forall₂_congr fun part hmem => (hbuilt.of_mem_stored part hmem).wide_iff.symm
  rw [hwide, Plan.answer_root, Plan.exists_answer_iff]
  by_cases hpasses : (∃ r, child.relation? ctx host.disk = some r) ∧
      ∀ part ∈ child.stored, ∀ r, part.relation? ctx host.disk = some r → r.Wide
  · obtain ⟨n, w, channel', host', hrun, o, rows, ho, hread, hrelation⟩ := hgood hpasses
    rw [hrun]
    refine ⟨⟨fun _ => hpasses, fun _ => ⟨n, rfl⟩⟩, fun _ _ => ⟨o, rows, ho, ?_, hread⟩⟩
    exact (Plan.answer_ok_iff ctx host.disk).mpr ⟨_, hrelation⟩
  · obtain ⟨e, rest, hrun⟩ := hbad hpasses
    rw [hrun]
    refine ⟨⟨?_, fun h => absurd h hpasses⟩, ?_⟩
    · rintro ⟨n, hn⟩
      cases hn
    · intro n hn
      cases hn

end Answer

/-! ## A table with rows that are too long -/

namespace Sample

/-- The only row of the table. -/
def row : Row := [.int4 1, .int4 10]

def disk : Disk := ⟨[([".", "t.rows"], .file 0 (Record.encode row))], 1⟩

/-- Both columns of the table. -/
def wide : Schema := [⟨"t.a", .int4⟩, ⟨"t.b", .int4⟩]

/-- The first column alone. -/
def narrow : Schema := [⟨"t.a", .int4⟩]

/-- An index on the first column, with one entry. -/
def index : Index.Reader :=
  ⟨"t.idx", ⟨1, 1, 1, 15, 15, narrow, [⟨"t.a", true, false⟩]⟩,
    ⟨[⟨0, true, false⟩], [⟨"t.a", true, false⟩]⟩, [⟨[.int4 1], 0⟩], 80,
    Index.encodeEntry ([.int4 1], 0)⟩

def context : TaskContext :=
  ⟨[("t", ⟨"t", "t.rows"⟩)], [], [⟨"t", "a", ⟨"t", "t.rows"⟩, index⟩]⟩

/-- The comparison that the index answers. -/
def test : Expr := .binary (.comparison .eq) (.column "a") (.literal (.int4 1))

def found (schema : Schema) : Plan := .filter test (.scan ⟨.table "t", schema, none, none⟩)

def query (schema : Schema) : Plan := .sort [⟨"a", true, false⟩] (found schema)

theorem fits_row : row.Fits := ⟨by decide, by decide⟩

theorem resolve_disk : disk.resolve "t.rows" = .ok [".", "t.rows"] :=
  Disk.resolve_alone RowAppender.isAlone_rows

theorem reader?_disk :
    disk.reader? "t.rows" = some (.standing "t.rows" (Record.encode row) 0) := by
  rw [Disk.reader?, RowReader.open?_of_file resolve_disk rfl]
  rfl

theorem yield?_index (schema : Schema) :
    (RowSource.indexScan disk ⟨schema, ⟨"t", "t.rows"⟩, index, .eq [.int4 1]⟩).yield? =
      some [row] := by
  have hfind : IndexScan.find ⟨schema, ⟨"t", "t.rows"⟩, index, .eq [.int4 1]⟩ = .ok [0] := by
    have hequal : (index.scanEqual [.int4 1]).bind Index.Scan.offsets = .ok [0] := by cbv
    exact hequal
  have hread := RowReader.readAt_of_reads
    (RowReader.reads_standing "t.rows" (Record.encode row) 0) fits_row
    (List.append_nil _).symm (Nat.zero_le _) (Nat.zero_le _)
  rw [RowSource.yield?_indexScan, hfind]
  simp only [Except.toOption, Option.bind_some, reader?_disk, RowSource.rowsAt?, hread,
    Option.map_some]

theorem relation?_found {schema : Schema} (h : schema = wide ∨ schema = narrow) :
    (found schema).relation? context disk = some ⟨schema, [row]⟩ := by
  have hop : Operator.ofScan context ⟨.table "t", schema, none, none⟩ (some test) =
      .ok (.filter (.binary (.comparison .eq) (.column 0 "a") (.literal (.int4 1)))
        (.indexScan ⟨schema, ⟨"t", "t.rows"⟩, index, .eq [.int4 1]⟩)) := by
    rcases h with rfl | rfl <;> cbv
  have hkeep : RowSource.keep
      (BoundExpr.keeps (.binary (.comparison .eq) (.column 0 "a") (.literal (.int4 1)))) [row] =
        some [row] := by cbv
  rw [found, Plan.relation?_filter_scan, hop]
  simp only [Except.toOption, Option.bind_some, Operator.relation?, Operator.source,
    RowSource.yield?_filter, yield?_index, hkeep]
  rfl

theorem relation?_query {schema : Schema} (h : schema = wide ∨ schema = narrow) :
    (query schema).relation? context disk = some ⟨schema, [row]⟩ := by
  have horder : RowOrder.ofSpecs schema [⟨"a", true, false⟩] =
      .ok ⟨[⟨0, true, false⟩], [⟨"a", true, false⟩]⟩ := by rcases h with rfl | rfl <;> cbv
  rw [query, Plan.relation?_sort, relation?_found h, Option.bind_some, Relation.sort?, horder]
  simp [Except.toOption, RowOrder.sort]

theorem stored_query (schema : Schema) : (query schema).stored = [found schema] := rfl

theorem fits {schema : Schema} (h : schema = wide ∨ schema = narrow) :
    ∀ part ∈ query schema :: (query schema).stored, ∀ rows,
      part.answer context disk = .ok rows → ∀ row ∈ rows, row.Fits := by
  intro part hpart rows hrows
  obtain ⟨found, hfound⟩ := (Plan.answer_ok_iff context disk).mp hrows
  have hrelation : part.relation? context disk = some ⟨schema, [row]⟩ := by
    rw [stored_query] at hpart
    rcases List.mem_cons.mp hpart with rfl | hpart
    · exact relation?_query h
    · rw [List.mem_singleton.mp hpart]
      exact relation?_found h
  cases hfound.symm.trans hrelation
  simpa using fits_row

theorem isAlone_out : Path.IsAlone "out" :=
  ⟨⟨by decide, by decide, by decide, by decide⟩, by decide, by decide, by decide⟩

theorem createDirectories_disk : disk.createDirectories "out" =
    (.ok (), ⟨disk.entries ++ [([".", "out"], .directory)], 1⟩) :=
  Disk.createDirectories_alone isAlone_out rfl

theorem ready (blocks : List Block) : Ready context disk "out" [".", "out"] blocks := by
  have hname : ∀ (place : Place) (seq : UInt32), place.length = 2 →
      place ≠ outputPlace [".", "out"] seq := by
    rintro place seq hplace rfl
    cases hplace
  refine ⟨rfl, ?_, ?_, ?_, ?_⟩
  · intro t ht
    obtain rfl := List.mem_singleton.mp ht
    exact ⟨_, reader?_disk⟩
  · intro t ht b _
    obtain rfl := List.mem_singleton.mp ht
    rw [resolve_disk]
    exact fun h => hname _ b.id.seq rfl (Except.ok.inj h)
  · rw [createDirectories_disk]
  · rw [createDirectories_disk]
    refine ⟨⟨Disk.resolve_alone isAlone_out, rfl⟩, by decide, ?_⟩
    intro b _
    have hfree : (disk.entries ++ [([".", "out"], Entry.directory)]).find?
        (·.1 == outputPlace [".", "out"] b.id.seq) = none := by
      refine List.find?_eq_none.mpr fun e he heq => ?_
      simp only [disk, List.cons_append, List.nil_append, List.mem_cons, List.not_mem_nil,
        or_false] at he
      rcases he with rfl | rfl <;> exact hname _ b.id.seq rfl (beq_iff_eq.mp heq)
    rw [Disk.get?, if_neg (by simp [outputPlace]), hfree]
    exact fun h => by cases h

theorem exists_plan {schema : Schema} (h : schema = wide ∨ schema = narrow) :
    ∃ plan, MasterPlan.ofPlan none (QueryId.ofNat 1) (.root (query schema)) = .ok plan := by
  have hplan : (MasterPlan.ofPlan none (QueryId.ofNat 1) (.root (query schema))).isOk = true := by
    rcases h with rfl | rfl <;> decide +kernel
  cases hp : MasterPlan.ofPlan none (QueryId.ofNat 1) (.root (query schema)) with
  | error e =>
    rw [hp] at hplan
    cases hplan
  | ok plan => exact ⟨plan, rfl⟩

def host : Host := ⟨disk, Log.start .fatal ⟨"", ""⟩, .zero, 2⟩

def dispatched (plan : MasterPlan) : List Dispatched :=
  plan.order.map fun b => ⟨⟨0, b.id⟩, ⟨b, b.id == plan.terminal⟩⟩

theorem blocks_dispatched (plan : MasterPlan) :
    (dispatched plan).map (·.request.block) = plan.order := by
  rw [dispatched, List.map_map]
  exact List.map_id _

end Sample

/-- Under a schema with both columns the query runs in blocks. -/
theorem runAll_order_ok_wide :
    ∃ plan, MasterPlan.ofPlan none (QueryId.ofNat 1) (.root (Sample.query Sample.wide)) = .ok plan ∧
      ∃ n, ((start Sample.context "out").runAll .start Sample.host 0
        (Sample.dispatched plan)).1 = .ok n := by
  obtain ⟨plan, hplan⟩ := Sample.exists_plan (Or.inl rfl)
  have h := runAll_order_ok_iff hplan (show Plan.Built _ from trivial)
    (show Ready _ Sample.host.disk _ _ _ from Sample.ready plan.blocks) (Sample.fits (Or.inl rfl))
    (Sample.blocks_dispatched plan) .start 0
  refine ⟨plan, hplan, h.1.mpr ⟨?_, ?_⟩⟩
  · rw [Plan.answer_root, Plan.exists_answer_iff]
    exact ⟨_, Sample.relation?_query (Or.inl rfl)⟩
  · intro part hpart rows hrows
    obtain ⟨found, hfound⟩ := (Plan.answer_ok_iff _ _).mp hrows
    rw [List.mem_singleton.mp hpart] at hfound ⊢
    cases hfound.symm.trans (Sample.relation?_found (Or.inl rfl))
    decide

/-- Under a schema with one column the query has an answer, and does not run in blocks: an index
scan hands on the long row, and the block that reads it refuses it. -/
theorem answer_without_runAll :
    ∃ plan, MasterPlan.ofPlan none (QueryId.ofNat 1) (.root (Sample.query Sample.narrow)) =
        .ok plan ∧
      (Sample.query Sample.narrow).Built ∧
      Ready Sample.context Sample.host.disk "out" [".", "out"] plan.blocks ∧
      (Plan.root (Sample.query Sample.narrow)).answer Sample.context Sample.host.disk =
        .ok [Sample.row] ∧ Sample.row.Fits ∧
      ¬∃ n, ((start Sample.context "out").runAll .start Sample.host 0
        (Sample.dispatched plan)).1 = .ok n := by
  obtain ⟨plan, hplan⟩ := Sample.exists_plan (Or.inr rfl)
  have hready : Ready Sample.context Sample.host.disk "out" [".", "out"] plan.blocks :=
    Sample.ready plan.blocks
  have hbuilt : (Sample.query Sample.narrow).Built := trivial
  refine ⟨plan, hplan, hbuilt, hready, ?_, Sample.fits_row, ?_⟩
  · rw [Plan.answer_root]
    exact (Plan.answer_ok_iff _ _).mpr ⟨_, Sample.relation?_query (Or.inr rfl)⟩
  · obtain ⟨_, hbad⟩ := hready.runAll_order hplan hbuilt (Sample.fits (Or.inr rfl))
      (Sample.blocks_dispatched plan) .start 0
    have hrun := hbad ?_
    · obtain ⟨e, rest, hrun⟩ := hrun
      rw [hrun]
      rintro ⟨n, hn⟩
      cases hn
    · rintro ⟨_, hwide⟩
      have hlength := hwide _ (List.mem_singleton_self _) _ (Sample.relation?_found (Or.inr rfl))
        _ (List.mem_singleton_self _)
      exact absurd hlength (by decide)

end BlockQuery.Worker
