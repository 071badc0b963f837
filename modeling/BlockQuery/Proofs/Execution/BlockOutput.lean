import BlockQuery.Execution.BlockOutput
import BlockQuery.Proofs.Plan.Relation
import BlockQuery.Proofs.RowFile.Append

/-!
# The file of a block

A block runs without an error if its plan has a relation on the disk with the
new, empty file.  Then the file holds the rows of that relation, and the rest of
the disk is as before.
-/

namespace BlockQuery

/-- Whether a disk has got a file of rows, and is the same in all other places. -/
structure Disk.Gains (disk : Disk) (place : Place) (rows : List Row) (after : Disk) : Prop where
  get?_self : ∃ number, after.get? place = some (.file number (rows.flatMap Record.encode))
  get?_of_ne : ∀ q, q ≠ place → after.get? q = disk.get? q

namespace RowSource

variable (src : RowSource) (appender : RowAppender) (disk : Disk)

/-- An execution that is not cancelled takes all rows. -/
theorem foldUntil_none {α : Type} (f : Row → α → Except ExecError α) (s : src.State) (a : α) :
    src.foldUntil none f s a = src.fold false f s a := by
  have hnever : ((none : Option ℕ) == some 0) = false := rfl
  fun_induction RowSource.fold src false f s a
  all_goals
    rw [foldUntil.eq_def, hnever]
    split <;> simp_all

theorem appendTo_none : src.appendTo none appender disk =
    match src.init false src.start with
    | (.error e, s) => ((appender, disk), .error e, src.tally (src.close s))
    | (.ok _, s) =>
      let (written, result, s) :=
        src.fold false (fun row (a, d) => .ok (a.append d row)) s (appender, disk)
      (written, result, src.tally (src.close s)) := by
  rw [appendTo, Option.map_none]
  simp only [foldUntil_none]
  rfl

/-- All rows of a source are appended in turn, or it fails. -/
theorem appendTo_eq :
    (∀ rows, src.yield? = some rows → ∃ tally, src.appendTo none appender disk =
      (rows.foldl (fun (a, d) row => a.append d row) (appender, disk), .ok (), tally)) ∧
    (src.yield? = none → ∃ written e tally,
      src.appendTo none appender disk = (written, .error e, tally)) := by
  have hrows : ∀ rows : List Row,
      rows.foldlM (fun (a, d) row => (.ok (a.append d row) : Except ExecError (RowAppender × Disk)))
        (appender, disk) = .ok (rows.foldl (fun (a, d) row => a.append d row) (appender, disk)) :=
    fun rows => foldlM_ok (fun row (a, d) => a.append d row) rows (appender, disk)
  rw [yield?.eq_def]
  rcases hinit : src.init false src.start with ⟨e | u, s⟩
  · have hstop : src.appendTo none appender disk =
        ((appender, disk), .error e, src.tally (src.close s)) := by
      rw [appendTo_none, hinit]
    exact ⟨fun rows h => (Option.some_ne_none rows h.symm).elim, fun _ => ⟨_, e, _, hstop⟩⟩
  have hfold := @fold_ok_iff src s (RowAppender × Disk)
    (fun row (a, d) => .ok (a.append d row)) (appender, disk)
  rcases hrun : src.fold false (fun row (a, d) => .ok (a.append d row)) s (appender, disk) with
    ⟨written, result, t⟩
  have hall : src.appendTo none appender disk = (written, result, src.tally (src.close t)) := by
    rw [appendTo_none, hinit]
    exact congrArg (fun x => (x.1, x.2.1, src.tally (src.close x.2.2))) hrun
  rw [hall]
  cases result with
  | error e =>
    refine ⟨fun rows h => ?_, fun _ => ⟨written, e, _, rfl⟩⟩
    obtain ⟨t', ht'⟩ := hfold.mpr ⟨rows, h, hrows rows⟩
    rw [hrun] at ht'
    cases ht'
  | ok u =>
    obtain ⟨found, hfound, hwritten⟩ := hfold.mp ⟨t, hrun⟩
    rw [hrows] at hwritten
    cases hwritten
    refine ⟨fun rows h => ?_, fun h => ?_⟩
    · cases hfound.symm.trans h
      exact ⟨_, rfl⟩
    · cases hfound.symm.trans h

end RowSource

namespace Block

variable {b : Block} {ctx : TaskContext} {host : Host} {path : String} {file : OpenFile}
  {after : Disk}

/-- What is written of the relation of a block, and counted. -/
theorem writeRows_of_some
    (hcreate : RowAppender.create host.disk path = (.ok ⟨path, file, [], 0, 0, 0⟩, after))
    (hopened : Disk.Opened host.disk path file after) {r : Relation}
    (hr : b.plan.relation? ctx after = some r) :
    ∃ host', b.writeRows ctx none path host = (.ok r.rows.length, host') ∧
      host.disk.Gains file.place r.rows host'.disk := by
  obtain ⟨op, hop, hrelation⟩ := Option.bind_eq_some_iff.mp hr
  obtain ⟨rows, hrows, rfl⟩ := Option.map_eq_some_iff.mp hrelation
  have hplan : Operator.ofPlan ctx b.plan = .ok op := by
    cases h : Operator.ofPlan ctx b.plan with
    | error e => rw [h] at hop; cases hop
    | ok found => rw [h] at hop; cases hop; rfl
  obtain ⟨tally, happend⟩ :=
    ((op.source after).appendTo_eq ⟨path, file, [], 0, 0, 0⟩ after).1 rows hrows
  obtain ⟨written, hwritten⟩ : ∃ written, written =
    rows.foldl (fun (a, d) row => a.append d row) ((⟨path, file, [], 0, 0, 0⟩ : RowAppender), after) :=
      ⟨_, rfl⟩
  have hadds := RowAppender.adds_foldl ⟨path, file, [], 0, 0, 0⟩ after rows
  have hcount := RowAppender.rows_foldl ⟨path, file, [], 0, 0, 0⟩ after rows
  rw [← hwritten] at happend hadds hcount
  have hfile : written.1.file = file := hadds.file
  have hself := RowAppender.get?_close (hadds.holds (RowAppender.holds_of_opened hopened))
  rw [hfile, List.nil_append] at hself
  have hrows : written.1.rows = rows.length := hcount.trans (Nat.zero_add _)
  rw [writeRows, hplan]
  simp only [hcreate, happend, ← hrows]
  refine ⟨_, rfl, ⟨_, hself⟩, ?_⟩
  intro q hq
  dsimp only
  rw [RowAppender.get?_close_of_ne (by rwa [hfile]), hadds.get?_of_ne q hq, hopened.get?_of_ne q hq]

theorem writeRows_of_none
    (hcreate : RowAppender.create host.disk path = (.ok ⟨path, file, [], 0, 0, 0⟩, after))
    (hr : b.plan.relation? ctx after = none) :
    ∃ e host', b.writeRows ctx none path host = (.error e, host') := by
  rw [writeRows]
  cases hplan : Operator.ofPlan ctx b.plan with
  | error e => exact ⟨_, _, rfl⟩
  | ok op =>
    have hnone : (op.source after).yield? = none := by
      rw [Plan.relation?, hplan] at hr
      exact Option.map_eq_none_iff.mp hr
    obtain ⟨written, e, tally, happend⟩ :=
      ((op.source after).appendTo_eq ⟨path, file, [], 0, 0, 0⟩ after).2 hnone
    simp only [hcreate, happend]
    exact ⟨_, _, rfl⟩

/-- A block runs if its plan has a relation, and hands over the file and the number of its rows. -/
theorem run_of_some
    (hcreate : RowAppender.create host.disk path = (.ok ⟨path, file, [], 0, 0, 0⟩, after))
    (hopened : Disk.Opened host.disk path file after) {r : Relation}
    (hr : b.plan.relation? ctx after = some r) :
    ∃ host', b.run ctx none path host =
        (.ok ⟨b.id.seq, r.rows.length, ⟨s!"block_{b.id.seq.toNat}", path⟩⟩, host') ∧
      host.disk.Gains file.place r.rows host'.disk := by
  obtain ⟨log, hlog⟩ : ∃ log, log = (Scope.enter "BLOCK_EXEC" [("block", b.id.display)] host.log).2 :=
    ⟨_, rfl⟩
  have hcreated : RowAppender.create ({ host with log := log } : Host).disk path =
      (.ok ⟨path, file, [], 0, 0, 0⟩, after) := hcreate
  obtain ⟨host', hwrite, hgains⟩ := writeRows_of_some hcreated hopened hr
  subst hlog
  rw [run]
  dsimp only
  rw [hwrite]
  exact ⟨_, rfl, hgains⟩

theorem run_of_none
    (hcreate : RowAppender.create host.disk path = (.ok ⟨path, file, [], 0, 0, 0⟩, after))
    (hr : b.plan.relation? ctx after = none) :
    ∃ e host', b.run ctx none path host = (.error e, host') := by
  obtain ⟨log, hlog⟩ : ∃ log, log = (Scope.enter "BLOCK_EXEC" [("block", b.id.display)] host.log).2 :=
    ⟨_, rfl⟩
  have hcreated : RowAppender.create ({ host with log := log } : Host).disk path =
      (.ok ⟨path, file, [], 0, 0, 0⟩, after) := hcreate
  obtain ⟨e, host', hwrite⟩ := writeRows_of_none hcreated hr
  subst hlog
  rw [run]
  dsimp only
  rw [hwrite]
  exact ⟨e, _, rfl⟩

end Block

end BlockQuery
