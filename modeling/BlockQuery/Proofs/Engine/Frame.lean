import BlockQuery.Engine.Query
import BlockQuery.Proofs.Disk.DataFiles
import BlockQuery.Proofs.Disk.Places
import BlockQuery.Proofs.Engine.OutputFiles
import BlockQuery.Proofs.MasterPlan.Accepted

/-!
# What a query leaves behind

Whatever becomes of a query, it leaves the catalog and every file as they were.
Its blocks write below its work directory, which is removed in the end; what
stays are directories on the way there.
-/

namespace BlockQuery

/-! ## Planning -/

namespace MasterPlan

theorem query_of_ofPlan {catalog : Option Catalog} {query : QueryId} {root : Plan} {p : MasterPlan}
    (h : ofPlan catalog query root = .ok p) : p.query = query := by
  rw [ofPlan.eq_def] at h
  split at h
  · cases h
  · split at h
    · cases h
    · obtain ⟨⟨top, s⟩, -, h⟩ := Except.bind_eq_ok.mp h
      exact (wellFormed_of_ofBlocks h).2.1
  · cases h

theorem query_of_result? {rule : PlanRule} {p next : MasterPlan}
    (h : rule.result? p = .ok (some next)) : next.query = p.query := by
  cases rule with
  | fusion =>
    rw [PlanRule.result?, fuse.eq_def] at h
    split at h
    · cases h
    · split at h
      · cases h
      · split at h
        · cases h
        · obtain ⟨found, hfound, heq⟩ := Except.map_eq_ok.mp h
          cases heq
          exact (wellFormed_of_ofBlocks hfound).2.1
  | broadcasting threshold =>
    rw [PlanRule.result?, markBroadcast.eq_def] at h
    split at h
    · cases h
    · obtain ⟨found, hfound, heq⟩ := Except.map_eq_ok.mp h
      cases heq
      exact (wellFormed_of_ofBlocks hfound).2.1

theorem query_of_first? {rules : List PlanRule} {p next : MasterPlan} {rule : PlanRule}
    (h : PlanRule.first? rules p = .ok (some (rule, next))) : next.query = p.query := by
  induction rules with
  | nil => cases h
  | cons r rules ih =>
    obtain ⟨found, hfound, h⟩ := Except.bind_eq_ok.mp h
    cases found with
    | none => exact ih h
    | some found =>
      cases h
      exact query_of_result? hfound

/-- All rules keep the id of the query. -/
theorem query_of_improve {rules : List PlanRule} {cap : ℕ} {p last : MasterPlan}
    (h : (improve rules cap p).2 = .ok last) : last.query = p.query := by
  have hfrom : ∀ (left : ℕ) (p : MasterPlan),
      (improveFrom rules cap left p).2 = .ok last → last.query = p.query := by
    intro left
    induction left with
    | zero =>
      intro p h
      rw [improveFrom] at h
      split at h
      · cases h
      · cases h
        rfl
      · cases h
    | succ left ih =>
      intro p h
      rw [improveFrom] at h
      split at h
      · cases h
      · cases h
        rfl
      next rule next hfirst => exact (ih next h).trans (query_of_first? hfirst)
  exact hfrom cap p h

end MasterPlan

namespace Host

theorem disk_plan (host : Host) (config : Config) (catalog : Option Catalog) (query : QueryId)
    (root : Plan) : (host.plan config catalog query root).2.disk = host.disk := by
  have hrules : ∀ (done : List RuleUse) (host : Host),
      (done.foldl (fun host r => host.report .ruleApplied (ruleFields query r)) host).disk =
        host.disk := by
    intro done
    induction done with
    | nil => exact fun _ => rfl
    | cons r done ih => exact fun host => ih _
  rw [plan]
  split
  · rfl
  · dsimp only
    split
    · exact hrules _ _
    · exact hrules _ _

theorem query_of_plan {host : Host} {config : Config} {catalog : Option Catalog} {query : QueryId}
    {root : Plan} {p : MasterPlan} (h : (host.plan config catalog query root).1 = .ok p) :
    p.query = query := by
  rw [plan] at h
  split at h
  · cases h
  next raw hraw =>
    dsimp only at h
    split at h
    · cases h
    next improved himproved =>
      cases h
      exact (MasterPlan.query_of_improve himproved).trans (MasterPlan.query_of_ofPlan hraw)

end Host

namespace Engine

/-- Receiving a query changes neither the catalog nor the disk, and gives the plan the new id. -/
theorem receive_spec (e : Engine) (root : Plan) :
    (e.receive root).2.config = e.config ∧ (e.receive root).2.catalog = e.catalog ∧
      (e.receive root).2.host.disk = e.host.disk ∧
      ∀ p, (e.receive root).1 = .ok p → p.query = e.host.newQuery.1 := by
  obtain ⟨host, hhost⟩ : ∃ host, host = e.host.newQuery.2.report .queryReceived
    [("query_id", e.host.newQuery.1.display)] := ⟨_, rfl⟩
  have hdisk := host.disk_plan e.config (some e.catalog) e.host.newQuery.1 root
  have hquery : ∀ p, (host.plan e.config (some e.catalog) e.host.newQuery.1 root).1 = .ok p →
      p.query = e.host.newQuery.1 := fun p hp => Host.query_of_plan hp
  have hsame : host.disk = e.host.disk := by rw [hhost]; rfl
  rw [receive]
  dsimp only
  rw [← hhost]
  split
  next p after hplan =>
    rw [hplan] at hdisk hquery
    refine ⟨rfl, rfl, hdisk.trans hsame, fun found hfound => ?_⟩
    cases hfound
    exact hquery p rfl
  next fault after hplan =>
    rw [hplan] at hdisk
    exact ⟨rfl, rfl, hdisk.trans hsame, nofun⟩

/-! ## Tables and indexes of a query -/

theorem exists_log_bindIndexes (data : Fragment) (table : String) (entries : List IndexEntry)
    (ctx : TaskContext) (host : Host) :
    ∃ log, (bindIndexes data table entries ctx host).2 = { host with log := log } := by
  induction entries generalizing ctx host with
  | nil => exact ⟨host.log, rfl⟩
  | cons entry entries ih =>
    have hopen : ∃ log, (host.openIndex entry.path).2 = { host with log := log } := by
      rw [Host.openIndex]
      split
      · exact ⟨host.log, rfl⟩
      · exact ⟨_, rfl⟩
    rw [bindIndexes]
    split
    next e after hfail =>
      rw [hfail] at hopen
      exact hopen
    next reader after hok =>
      rw [hok] at hopen
      obtain ⟨log, rfl⟩ := hopen
      exact ih _ _

/-- Tables and indexes are found and opened with no trace but in the log. -/
theorem exists_log_bindTables (catalog : Catalog) (tables : List String) (ctx : TaskContext)
    (host : Host) :
    ∃ log, (bindTables catalog tables ctx host).2 = { host with log := log } := by
  induction tables generalizing ctx host with
  | nil => exact ⟨host.log, rfl⟩
  | cons table tables ih =>
    rw [bindTables]
    split
    · exact ⟨host.log, rfl⟩
    next t ht =>
      have hindexes := exists_log_bindIndexes ⟨table, t.path⟩ table (catalog.indexesOf table)
        (ctx.addTable table ⟨table, t.path⟩) host
      dsimp only
      split
      next e after hfail =>
        rw [hfail] at hindexes
        exact hindexes
      next bound after hok =>
        rw [hok] at hindexes
        obtain ⟨log, rfl⟩ := hindexes
        exact ih _ _

end Engine

/-! ## Writing the rows of a block -/

namespace RowSource

variable (src : RowSource)

/-- What holds of a value and is kept by each row holds when rows stop coming. -/
theorem foldUntil_of_step {α : Type} {P : α → Prop} {f : Row → α → Except ExecError α}
    (hstep : ∀ row a b, P a → f row a = .ok b → P b) (cancelAt : Option ℕ) (s : src.State) (a : α)
    (ha : P a) : P (src.foldUntil cancelAt f s a).1 := by
  fun_induction RowSource.foldUntil src cancelAt f s a with
  | case1 => exact ha
  | case2 => exact ha
  | case3 => exact ha
  | case4 cancelAt s a row t hnext b hb ih => exact ih (hstep row a b ha hb)

/-- However many rows come, they are added to the file of the appender. -/
theorem adds_appendTo (cancelAt : Option ℕ) (appender : RowAppender) (disk : Disk) :
    ∃ bytes, RowAppender.Adds appender disk bytes (src.appendTo cancelAt appender disk).1 := by
  rw [appendTo]
  split
  · exact ⟨[], RowAppender.Adds.refl appender disk⟩
  next u s hinit =>
    refine src.foldUntil_of_step (P := fun x => ∃ bytes, RowAppender.Adds appender disk bytes x)
      ?_ _ s _ ⟨[], RowAppender.Adds.refl appender disk⟩
    rintro row ⟨a, d⟩ b ⟨bytes, hadds⟩ hb
    cases hb
    exact ⟨_, hadds.trans (RowAppender.adds_append a d row)⟩

end RowSource

namespace RowAppender

/-- Where no directory has to be made, nothing but the file of an appender is touched. -/
theorem create_of_prepared {disk : Disk} {path : String}
    (h : prepareDirectory disk path = (.ok (), disk)) :
    (∃ e, create disk path = (.error e, disk)) ∨ ∃ appender made,
      create disk path = (.ok appender, made) ∧ Disk.Opened disk path appender.file made ∧
        Holds appender made [] := by
  rw [create, h]
  dsimp only
  cases hcreate : disk.create path with
  | error e => exact Or.inl ⟨_, rfl⟩
  | ok found =>
    have hopened := Disk.opened_of_create hcreate
    exact Or.inr ⟨_, _, rfl, hopened, holds_of_opened hopened⟩

end RowAppender

namespace Block

theorem disk_reportFailure (scope : Scope) (id : String) (e : ExecError) (host : Host) :
    (reportFailure scope id e host).disk = host.disk := by
  rw [reportFailure]
  dsimp only
  split <;> rfl

variable {dir child : String} {place : Place}

theorem differAt_writeRows (b : Block) (host : Host) (h : host.disk.LeadsTo dir place)
    (hchild : Path.IsName child) (hlast : child.toList.getLast? ≠ some '.') (ctx : TaskContext)
    (cancelAt : Option ℕ) : Disk.DifferAt (place ++ [child]) host.disk
      (b.writeRows ctx cancelAt (Path.join dir child) host).2.disk := by
  rw [writeRows]
  split
  · exact Disk.DifferAt.refl _ _
  next operator hoperator =>
    rcases RowAppender.create_of_prepared (RowAppender.prepareDirectory_of_leadsTo h hchild hlast)
      with ⟨e, hfail⟩ | ⟨appender, made, hok, hopened, hholds⟩
    · rw [hfail]
      exact Disk.DifferAt.refl _ _
    · rw [hok]
      dsimp only
      obtain ⟨bytes, hadds⟩ := (operator.source made).adds_appendTo cancelAt appender made
      have hself := RowAppender.get?_close (hadds.holds hholds)
      have hothers : ∀ q, q ≠ appender.file.place → (RowAppender.close
          ((operator.source made).appendTo cancelAt appender made).1.1
          ((operator.source made).appendTo cancelAt appender made).1.2).2.get? q =
            host.disk.get? q := by
        intro q hq
        rw [RowAppender.get?_close_of_ne (by rwa [hadds.file]), hadds.get?_of_ne q hq,
          hopened.get?_of_ne q hq]
      rw [hadds.file] at hself
      rw [← h.place_eq hchild hopened.resolve]
      exact ⟨Disk.sameDirectories_of_ne hopened.notDirectory (fun hd => nomatch hself.symm.trans hd)
        hothers, hothers⟩

/-- A block changes nothing but the file that it writes, whatever becomes of it. -/
theorem differAt_run (b : Block) (host : Host) (h : host.disk.LeadsTo dir place)
    (hchild : Path.IsName child) (hlast : child.toList.getLast? ≠ some '.') (ctx : TaskContext)
    (cancelAt : Option ℕ) : Disk.DifferAt (place ++ [child]) host.disk
      (b.run ctx cancelAt (Path.join dir child) host).2.disk := by
  obtain ⟨log, hlog⟩ : ∃ log, log = (Scope.enter "BLOCK_EXEC" [("block", b.id.display)] host.log).2 :=
    ⟨_, rfl⟩
  have hwrite := b.differAt_writeRows { host with log := log } h hchild hlast ctx cancelAt
  subst hlog
  rw [run]
  dsimp only
  split
  next e after hfail =>
    rw [hfail] at hwrite
    exact disk_reportFailure _ _ _ after ▸ hwrite
  next rows after hok =>
    rw [hok] at hwrite
    exact hwrite

end Block

/-! ## The work directory of a query -/

/-- Whether a disk has, beside what was there before, only directories on the way to a directory,
and what is below a child of it that its path leads to. -/
structure Disk.Confined (dir child : String) (before now : Disk) : Prop where
  kept : Extends before now
  new : ∀ q, before.get? q = none → now.get? q = none ∨
    (now.get? q = some .directory ∧ q ∈ Path.passed dir) ∨
    (Path.place dir ++ [child] <+: q ∧
      now.resolve (Path.join dir child) = .ok (Path.place dir ++ [child]))

namespace Disk.Confined

variable {dir child : String} {before now : Disk}

theorem refl (dir child : String) (disk : Disk) : Confined dir child disk disk :=
  ⟨fun _ _ hq => hq, fun _ hq => Or.inl hq⟩

theorem createDirectories (h : Confined dir child before now) (hdir : dir ≠ "")
    (hchild : Path.IsName child) :
    Confined dir child before (now.createDirectories (Path.join dir child)).2 := by
  have hmore := extends_createDirectories now (Path.join dir child)
  refine ⟨h.kept.trans hmore, fun q hq => ?_⟩
  rcases h.new q hq with hnone | ⟨hget, hpassed⟩ | ⟨hbelow, hresolve⟩
  · rcases made_of_createDirectories hnone with hnone | ⟨hget, hcheck, names, hprefix, hfollow⟩
    · exact Or.inl hnone
    · right
      have hq := eq_along_of_follow hfollow
      rcases Path.along_join hdir hchild hprefix with hpassed | rfl
      · exact Or.inl ⟨hget, hq ▸ hpassed⟩
      · right
        have hplace : q = Path.place dir ++ [child] := hq.trans (Path.place_join hdir hchild)
        exact ⟨hplace ▸ List.prefix_refl _, hplace ▸ resolve_eq_ok.mpr ⟨hcheck, hfollow⟩⟩
  · exact Or.inr (Or.inl ⟨hmore q _ hget, hpassed⟩)
  · exact Or.inr (Or.inr ⟨hbelow, resolve_of_directories (fun p => hmore p .directory) hresolve⟩)

/-- A file below the work directory may be written as soon as this is there. -/
theorem differAt (h : Confined dir child before now)
    (hfree : ∀ q, Path.place dir ++ [child] <+: q → before.get? q = none)
    (hleads : now.LeadsTo (Path.join dir child) (Path.place dir ++ [child])) {name : String}
    {after : Disk} (hdiffer : DifferAt (Path.place dir ++ [child] ++ [name]) now after) :
    Confined dir child before after := by
  have hbelow : Path.place dir ++ [child] <+: Path.place dir ++ [child] ++ [name] :=
    List.prefix_append _ _
  refine ⟨fun q entry hq => ?_, fun q hq => ?_⟩
  · have hne : q ≠ Path.place dir ++ [child] ++ [name] := by
      rintro rfl
      rw [hfree _ hbelow] at hq
      cases hq
    exact (hdiffer.others q hne).trans (h.kept q entry hq)
  · have hresolve := resolve_of_directories (fun q => (hdiffer.sameDirectories q).mp) hleads.resolve
    rcases eq_or_ne q (Path.place dir ++ [child] ++ [name]) with rfl | hne
    · exact Or.inr (Or.inr ⟨hbelow, hresolve⟩)
    · rw [hdiffer.others q hne]
      exact (h.new q hq).imp_right (Or.imp_right fun hold => ⟨hold.1, hresolve⟩)

/-- With the work directory all that was written is gone. -/
theorem removeTree (h : Confined dir child before now) (hdir : dir ≠ "") (hchild : Path.IsName child)
    (hfree : ∀ q, Path.place dir ++ [child] <+: q → before.get? q = none) :
    Extends before (now.removeTree (Path.join dir child)) ∧
      ∀ q, before.get? q = none → (now.removeTree (Path.join dir child)).get? q = none ∨
        (now.removeTree (Path.join dir child)).get? q = some .directory ∧ q ∈ Path.passed dir := by
  rw [Disk.removeTree]
  split
  next place hresolve =>
    obtain rfl : place = Path.place dir ++ [child] :=
      (eq_place_of_resolve hresolve).trans (Path.place_join hdir hchild)
    refine ⟨fun q entry hq => ?_, fun q hq => ?_⟩
    · have hnot : ¬Path.place dir ++ [child] <+: q := by
        intro hbelow
        rw [hfree q hbelow] at hq
        cases hq
      exact (get?_remove_outside hnot).trans (h.kept q entry hq)
    · by_cases hbelow : Path.place dir ++ [child] <+: q
      · have hlen : 1 < q.length := one_lt_of_get?_ne (by rw [hq]; exact nofun)
        exact Or.inl (get?_remove_below hbelow hlen)
      · rw [get?_remove_outside hbelow]
        rcases h.new q hq with hnone | hpassed | ⟨hbelow', -⟩
        · exact Or.inl hnone
        · exact Or.inr hpassed
        · exact absurd hbelow' hbelow
  next e hfail =>
    refine ⟨h.kept, fun q hq => ?_⟩
    rcases h.new q hq with hnone | hpassed | ⟨-, hresolve⟩
    · exact Or.inl hnone
    · exact Or.inr hpassed
    · cases hfail.symm.trans hresolve

end Disk.Confined

/-! ## The blocks of a query -/

section Run

variable {dir child : String} {before : Disk}

/-- Whatever becomes of a block, what it writes is below the work directory. -/
theorem Worker.confined_execute {w : Worker} {host : Host} (hdir : dir ≠ "")
    (hchild : Path.IsName child)
    (hfree : ∀ q, Path.place dir ++ [child] <+: q → before.get? q = none)
    (hw : w.workDir = Path.join dir child) (h : Disk.Confined dir child before host.disk)
    (d : Dispatched) (channel : Channel) :
    (w.execute d channel host).2.1.workDir = Path.join dir child ∧
      Disk.Confined dir child before (w.execute d channel host).2.2.2.disk := by
  have hmade := h.createDirectories hdir hchild
  rw [execute, hw]
  rcases hcreate : host.disk.createDirectories (Path.join dir child) with ⟨e | u, disk⟩
  · rw [hcreate] at hmade
    exact ⟨hw, hmade⟩
  · rw [hcreate] at hmade
    have hleads := Disk.leadsTo_of_createDirectories (Path.join_ne_empty hdir hchild) hcreate
    rw [Path.place_join hdir hchild] at hleads
    have hdiffer := d.request.block.differAt_run { host with disk := disk } hleads
      (isName_outputName d.request.block.id.seq) (by rw [getLast?_outputName]; decide) w.ctx
      w.cancelAt
    have hafter := hmade.differAt hfree hleads hdiffer
    have hpath : w.outputPath d.request.block =
        Path.join (Path.join dir child) (outputName d.request.block.id.seq) := by
      rw [outputPath, hw]
      rfl
    dsimp only
    rw [hpath]
    split
    next o after hok =>
      rw [hok] at hafter
      exact ⟨hw, hafter⟩
    next e after hfail =>
      rw [hfail] at hafter
      exact ⟨hw, hafter⟩

theorem QueryRun.confined_step {r : QueryRun} (hdir : dir ≠ "") (hchild : Path.IsName child)
    (hfree : ∀ q, Path.place dir ++ [child] <+: q → before.get? q = none)
    (hw : r.worker.workDir = Path.join dir child)
    (h : Disk.Confined dir child before r.host.disk) :
    r.step.2.worker.workDir = Path.join dir child ∧
      Disk.Confined dir child before r.step.2.host.disk := by
  change (r.worker.step r.channel r.host).2.1.workDir = _ ∧
    Disk.Confined dir child before (r.worker.step r.channel r.host).2.2.2.disk
  rw [Worker.step]
  split
  · exact ⟨hw, h⟩
  next d rest htake =>
    have hran := r.worker.confined_execute hdir hchild hfree hw h d rest
    split
    next o after hok =>
      rw [hok] at hran
      exact hran
    next e after hfail =>
      rw [hfail] at hran
      exact hran

theorem Scheduler.disk_advance {Q : Type} (s : Scheduler) (dispatcher : Dispatcher Q) (queue : Q)
    (host : Host) : (s.advance dispatcher queue host).2.2.2.disk = host.disk := by
  rw [advance]
  split
  · rfl
  · split
    · rfl
    · split <;> rfl

/-- Cancelled or not, the blocks that run leave all as it was but below the work directory. -/
theorem QueryRun.confined_runToEnd {r : QueryRun} (hdir : dir ≠ "") (hchild : Path.IsName child)
    (hfree : ∀ q, Path.place dir ++ [child] <+: q → before.get? q = none)
    (hw : r.worker.workDir = Path.join dir child)
    (h : Disk.Confined dir child before r.host.disk) (signal : ℕ → Option ℕ) (n : ℕ) :
    Disk.Confined dir child before (runToEnd signal n r).2.host.disk := by
  induction n generalizing r with
  | zero => exact h
  | succ n ih =>
    have hadvance := r.scheduler.disk_advance Channel.dispatcher r.channel r.host
    have hdisk : r.advance.2.host.disk = r.host.disk := hadvance
    have hworker : r.advance.2.worker = r.worker := rfl
    rw [runToEnd]
    rcases hnext : r.advance with ⟨e | found, s⟩
    · rw [hnext] at hdisk
      exact hdisk ▸ h
    · rw [hnext] at hdisk hworker
      cases found with
      | none => exact hdisk ▸ h
      | some handle =>
        dsimp only at hdisk hworker ⊢
        have hran := QueryRun.confined_step
          (r := { s with worker := { s.worker with cancelAt := signal (n + 1) } }) hdir hchild hfree
          (by rw [hworker]; exact hw) (hdisk ▸ h)
        split
        next e after hfail =>
          rw [hfail] at hran
          exact hran.2
        next o after hok =>
          rw [hok] at hran
          exact ih hran.1 hran.2

end Run

/-! ## Answering a query -/

namespace QueryId

theorem toList_display (id : QueryId) : id.display.toList = 'q' :: '_' :: id.digits := by
  simp [display]

theorem notMem_digits (id : QueryId) : '/' ∉ id.digits := by
  have hdigits : ∀ n < 16, Nat.digitChar n ≠ '/' := by decide
  rw [digits, List.mem_map]
  rintro ⟨i, -, hi⟩
  exact hdigits _ (Nat.mod_lt _ (by decide)) hi

theorem isName_display (id : QueryId) : Path.IsName id.display := by
  have hne : ∀ {s : String}, s.toList.head? ≠ some 'q' → id.display ≠ s := by
    rintro _ hs rfl
    rw [toList_display] at hs
    exact hs rfl
  refine ⟨?_, hne (by decide), hne (by decide), hne (by decide)⟩
  rw [toList_display]
  simp [notMem_digits]

theorem display_ne_queries (id : QueryId) : id.display ≠ "queries" := by
  intro h
  have hlist := congrArg String.toList h
  rw [toList_display] at hlist
  exact absurd (List.cons.inj (List.cons.inj hlist).2).1 (by decide)

end QueryId

namespace Engine

/-- The directory with the work directories of all queries. -/
def queriesDir (e : Engine) : String := Path.join e.config.dataDir "queries"

theorem isName_queries : Path.IsName "queries" :=
  ⟨by decide, by decide, by decide, by decide⟩

theorem queriesDir_ne_empty (e : Engine) : e.queriesDir ≠ "" := by
  rcases eq_or_ne e.config.dataDir "" with hempty | hdir
  · rw [queriesDir, hempty, Path.join_empty]
    exact isName_queries.ne_empty
  · exact Path.join_ne_empty hdir isName_queries

/-- Whether the id of the next query is new: no entry of the disk has it in its place, and no
directory on the way to the data. -/
structure NewId (e : Engine) : Prop where
  disk : ∀ x ∈ e.host.disk.entries, e.host.newQuery.1.display ∉ x.1
  dataDir : e.host.newQuery.1.display ∉ Path.split e.config.dataDir

theorem confined_answerIn {dir child : String} (hdir : dir ≠ "") (hchild : Path.IsName child)
    (catalog : Catalog) (p : MasterPlan) (signal : ℕ → Option ℕ) (host : Host)
    (hfree : ∀ q, Path.place dir ++ [child] <+: q → host.disk.get? q = none) :
    Disk.Confined dir child host.disk
      (answerIn catalog p (Path.join dir child) signal host).2.disk := by
  have hbind : (bindTables catalog (scannedTables p) .empty host).2.disk = host.disk := by
    obtain ⟨log, hlog⟩ := exists_log_bindTables catalog (scannedTables p) .empty host
    rw [hlog]
  rw [answerIn]
  split
  next e after hfail =>
    rw [hfail] at hbind
    exact hbind ▸ Disk.Confined.refl dir child after.disk
  next ctx after hok =>
    rw [hok] at hbind
    have hrun := QueryRun.confined_runToEnd (r := .start p ctx (Path.join dir child) after) hdir hchild
      hfree rfl (hbind ▸ Disk.Confined.refl dir child after.disk) signal p.blocks.length
    split
    next e r hfail =>
      rw [hfail] at hrun
      exact hrun
    next r hok =>
      rw [hok] at hrun
      exact hrun

theorem NewId.free {e : Engine} (h : e.NewId) (q : Place)
    (hq : Path.place e.queriesDir ++ [e.host.newQuery.1.display] <+: q) :
    e.host.disk.get? q = none := by
  have hlen : 1 < q.length := by
    have hplace := List.length_pos_of_ne_nil (Path.place_ne_nil e.queriesDir)
    have hprefix := hq.length_le
    rw [List.length_append, List.length_singleton] at hprefix
    omega
  rw [Disk.get?, if_neg (Nat.not_le.mpr hlen), Option.map_eq_none_iff, List.find?_eq_none]
  intro x hx heq
  obtain rfl : x.1 = q := by simpa using heq
  exact h.disk x hx (hq.subset (List.mem_append_right _ (List.mem_singleton_self _)))

/-- The way to the work directories of queries passes none of the next query. -/
theorem NewId.not_passed {e : Engine} (h : e.NewId) {q : Place} (hq : q ∈ Path.passed e.queriesDir) :
    ¬Path.place e.queriesDir ++ [e.host.newQuery.1.display] <+: q := by
  rintro ⟨more, rfl⟩
  have htail : e.host.newQuery.1.display ∈
      (Path.place e.queriesDir ++ [e.host.newQuery.1.display] ++ more).tail := by
    rw [List.append_assoc, List.tail_append_of_ne_nil (Path.place_ne_nil e.queriesDir)]
    exact List.mem_append_right _ List.mem_cons_self
  rcases Path.mem_split_join isName_queries (Path.mem_split_of_mem_passed hq htail) with
    hdata | hqueries
  · exact h.dataDir hdata
  · exact QueryId.display_ne_queries _ hqueries

/-- Running a plan that was received leaves the disk as it was but for directories on the way. -/
theorem frame_answer (e : Engine) {p : MasterPlan} {id : QueryId} (hp : p.query = id)
    (signal : ℕ → Option ℕ) (host : Host) {before : Disk} (hbefore : host.disk = before)
    (hfree : ∀ q, Path.place e.queriesDir ++ [id.display] <+: q → before.get? q = none) :
    Disk.Extends before (e.answer p signal host).2.disk ∧
      ∀ q, before.get? q = none → (e.answer p signal host).2.disk.get? q = none ∨
        (e.answer p signal host).2.disk.get? q = some .directory ∧ q ∈ Path.passed e.queriesDir := by
  subst hp hbefore
  have hconfined := confined_answerIn e.queriesDir_ne_empty p.query.isName_display e.catalog p signal
    host hfree
  exact hconfined.removeTree e.queriesDir_ne_empty p.query.isName_display hfree

/-- Whatever becomes of a query, and whenever it is cancelled: the catalog is as before, and so is
everything that was on the disk.  What is new there are directories on the way to the work
directories of queries, without the one of this query. -/
theorem executeUntil_frame (e : Engine) (root : Plan) (signal : ℕ → Option ℕ) (hnew : e.NewId) :
    (e.executeUntil root signal).2.config = e.config ∧
      (e.executeUntil root signal).2.catalog = e.catalog ∧
      (∀ q entry, e.host.disk.get? q = some entry →
        (e.executeUntil root signal).2.host.disk.get? q = some entry) ∧
      (∀ q, e.host.disk.get? q = none → (e.executeUntil root signal).2.host.disk.get? q = none ∨
        (e.executeUntil root signal).2.host.disk.get? q = some .directory ∧
          q ∈ Path.passed e.queriesDir) ∧
      ∀ q, Path.place (e.config.queryDir e.host.newQuery.1.display) <+: q →
        (e.executeUntil root signal).2.host.disk.get? q = none := by
  obtain ⟨hconfig, hcatalog, hdisk, hquery⟩ := e.receive_spec root
  -- What becomes of the disk; the last clause follows from the others.
  suffices h : (e.executeUntil root signal).2.config = e.config ∧
      (e.executeUntil root signal).2.catalog = e.catalog ∧
      Disk.Extends e.host.disk (e.executeUntil root signal).2.host.disk ∧
      ∀ q, e.host.disk.get? q = none → (e.executeUntil root signal).2.host.disk.get? q = none ∨
        (e.executeUntil root signal).2.host.disk.get? q = some .directory ∧
          q ∈ Path.passed e.queriesDir by
    obtain ⟨hconfig', hcatalog', hkept, hnone⟩ := h
    refine ⟨hconfig', hcatalog', hkept, hnone, fun q hq => ?_⟩
    have hplace : Path.place (e.config.queryDir e.host.newQuery.1.display) =
        Path.place e.queriesDir ++ [e.host.newQuery.1.display] :=
      Path.place_join e.queriesDir_ne_empty (QueryId.isName_display _)
    rw [hplace] at hq
    exact (hnone q (hnew.free q hq)).resolve_right fun hpassed => hnew.not_passed hpassed.2 hq
  rw [executeUntil]
  rcases hreceive : e.receive root with ⟨fault | p, received⟩
  · rw [hreceive] at hconfig hcatalog hdisk
    dsimp only at hconfig hcatalog hdisk ⊢
    rw [hdisk]
    exact ⟨hconfig, hcatalog, fun _ _ hq => hq, fun _ hq => Or.inl hq⟩
  · rw [hreceive] at hconfig hcatalog hdisk hquery
    dsimp only at hconfig hcatalog hdisk ⊢
    have hdir : received.queriesDir = e.queriesDir := by rw [queriesDir, hconfig, queriesDir]
    obtain ⟨host, hhost⟩ : ∃ host : Host, host = { received.host with
      log := (Scope.enter "QUERY_EXEC" [("query_id", p.query.display)] received.host.log).2 } :=
        ⟨_, rfl⟩
    obtain ⟨hkept, hnone⟩ := received.frame_answer (hquery p rfl) signal host
      (by rw [hhost]; exact hdisk) (hdir.symm ▸ hnew.free)
    rw [hdir] at hnone
    rw [← hhost]
    split
    next fault after hfail =>
      rw [hfail] at hkept hnone
      exact ⟨hconfig, hcatalog, hkept, hnone⟩
    next rows after hok =>
      rw [hok] at hkept hnone
      exact ⟨hconfig, hcatalog, hkept, hnone⟩

/-- An engine with the file of a table in the working directory, and no directory for its data. -/
def frameSample : Engine where
  config := .ofDataDir "data"
  catalog := { Catalog.builtin with tables := [.new "t" [⟨"a", .int4⟩] "t.rows"] }
  host := ⟨⟨[([".", "t.rows"], .file 0 (Record.encode [.int4 1]))], 1⟩, ⟨.fatal, ⟨"", ""⟩, [], []⟩,
    .zero, 7⟩

theorem newId_frameSample : frameSample.NewId where
  disk := by
    intro x hx
    rw [List.mem_singleton.mp hx]
    decide +kernel
  dataDir := by decide +kernel

/-- A scan that is cancelled after one row leaves the file of the table. -/
theorem executeUntil_frame_of_cancelled : frameSample.NewId ∧
    ((frameSample.executeUntil (.root (.scan ⟨.table "t", [⟨"a", .int4⟩], none, none⟩))
      fun _ => some 2).2.host.disk.get? [".", "t.rows"]) =
        some (.file 0 (Record.encode [.int4 1])) := by
  obtain ⟨-, -, hkept, -, -⟩ := frameSample.executeUntil_frame
    (.root (.scan ⟨.table "t", [⟨"a", .int4⟩], none, none⟩)) (fun _ => some 2) newId_frameSample
  exact ⟨newId_frameSample, hkept _ _ rfl⟩

end Engine

end BlockQuery
