import Mathlib.Logic.Relation
import BlockQuery.Proofs.RowFile.Positions
import BlockQuery.Proofs.RowSource.Files
import BlockQuery.Proofs.RowSource.Pairs

/-!
# Replaying a source

A source that is reset behind calls that did not fail has the outcome that it was started with.
The sources go back in different ways: a scan starts its files again, a sort and a grouping keep
the rows that they made, and a join keeps its right rows and takes only its left side back.  So it
is said of each source what its calls leave as it is, and that the outcome depends on nothing else.
-/

namespace BlockQuery.RowSource

/-- Whether a call that does not fail leads from one state to another. -/
def Answered (src : RowSource) (s t : src.State) : Prop := ∃ row, src.next false s = (.ok row, t)

/-- Whether a source that starts once starts alike from every state, and a reset behind calls that
did not fail takes it back to where it started. -/
structure Replays (src : RowSource) : Prop where
  init : ∀ {u s}, src.init false u = (.ok (), s) →
    ∀ v, ∃ t, src.init false v = (.ok (), t) ∧ src.outcome t = src.outcome s
  reset : ∀ {u s t}, src.init false u = (.ok (), s) → Relation.ReflTransGen src.Answered s t →
    src.outcome (src.reset t) = src.outcome s

theorem answered_of_take? {src : RowSource} {k : ℕ} {s t : src.State} {rows : List Row}
    (h : src.take? k s = some (rows, t)) : Relation.ReflTransGen src.Answered s t := by
  induction k generalizing s rows with
  | zero =>
    cases h
    exact .refl
  | succ k ih =>
    rw [take?] at h
    rcases hnext : src.next false s with ⟨e | row, u⟩
    · rw [hnext] at h
      cases h
    · rw [hnext] at h
      obtain ⟨⟨rest, t'⟩, hrest, ht⟩ := Option.map_eq_some_iff.mp h
      cases ht
      exact .head ⟨row, hnext⟩ (ih hrest)

/-- What holds of a state, and is kept by every call that does not fail, holds behind such calls. -/
theorem answered_induction {src : RowSource} {I : src.State → Prop} {s t : src.State} (hs : I s)
    (hnext : ∀ s row t, I s → src.next false s = (.ok row, t) → I t)
    (h : Relation.ReflTransGen src.Answered s t) : I t := by
  induction h with
  | refl => exact hs
  | tail _ hstep ih =>
    obtain ⟨row, hstep⟩ := hstep
    exact hnext _ row _ ih hstep

/-- A source that starts with its child, in a state `put` made of the child's, starts alike as the
child does. -/
theorem Replays.of_child {child src : RowSource} (h : child.Replays)
    (get : src.State → child.State) (put : child.State → src.State)
    (hinit : ∀ u, src.init false u =
      ((child.init false (get u)).1, put (child.init false (get u)).2))
    (houtcome : ∀ c d, child.outcome c = child.outcome d →
      src.outcome (put c) = src.outcome (put d))
    (hreset : ∀ u c t, child.init false u = (.ok (), c) →
      Relation.ReflTransGen src.Answered (put c) t →
        src.outcome (src.reset t) = src.outcome (put c)) :
    src.Replays := by
  have hstarted : ∀ {u s}, src.init false u = (.ok (), s) →
      ∃ c, child.init false (get u) = (.ok (), c) ∧ s = put c := by
    intro u s hs
    rw [hinit] at hs
    obtain ⟨hok, rfl⟩ := Prod.mk.inj hs
    exact ⟨_, Prod.ext hok rfl, rfl⟩
  refine ⟨fun {u s} hs v => ?_, fun {u s t} hs ht => ?_⟩
  · obtain ⟨c, hc, rfl⟩ := hstarted hs
    obtain ⟨d, hd, heq⟩ := h.init hc (get v)
    exact ⟨put d, by rw [hinit, hd], houtcome d c heq⟩
  · obtain ⟨c, hc, rfl⟩ := hstarted hs
    exact hreset _ c t hc ht

theorem Replays.values (rows : List Row) : (RowSource.values rows).Replays where
  init := by
    intro u s h v
    cases h
    exact ⟨rows, rfl, rfl⟩
  reset := by
    intro u s t h _
    cases h
    rfl

/-! ## Scans -/

namespace ScanState

/-- A scan that has counted some rows. -/
def recounted (s : ScanState) (n : ℕ) : ScanState := { s with scanned := n }

/-- What a scan has counted does not show in its rows. -/
theorem pull_recounted (disk : Disk) (s : ScanState) (n : ℕ) :
    ∃ m, (s.recounted n).pull disk = ((s.pull disk).1, (s.pull disk).2.recounted m) := by
  fun_induction ScanState.pull disk s generalizing n with
  | case1 s hr hp =>
    obtain ⟨_, _, k⟩ := s
    cases hr
    cases hp
    exact ⟨n, pull_nil disk n⟩
  | case2 s hr fragment rest hp e hopen =>
    obtain ⟨_, _, k⟩ := s
    cases hr
    cases hp
    exact ⟨n, by rw [recounted, pull_cons, hopen]⟩
  | case3 s hr fragment rest hp reader hopen ih =>
    obtain ⟨_, _, k⟩ := s
    cases hr
    cases hp
    rw [recounted, pull_cons, hopen]
    exact ih n
  | case4 s reader hr e r hnext =>
    obtain ⟨_, _, k⟩ := s
    cases hr
    refine ⟨n, ?_⟩
    rw [recounted, pull_some, hnext]
    rfl
  | case5 s reader hr r hnext ih =>
    obtain ⟨_, _, k⟩ := s
    cases hr
    rw [recounted, pull_some, hnext]
    exact ih n
  | case6 s reader hr row r hnext =>
    obtain ⟨_, _, k⟩ := s
    cases hr
    refine ⟨n + 1, ?_⟩
    rw [recounted, pull_some, hnext]
    rfl

theorem next_recounted (disk : Disk) (scan : SeqScan) (s : ScanState) (n : ℕ) :
    ∃ m, (s.recounted n).next scan disk =
      ((s.next scan disk).1, (s.next scan disk).2.recounted m) := by
  induction hleft : s.left disk using Nat.strong_induction_on generalizing s n with
  | _ k ih =>
    obtain ⟨m, hpull⟩ := pull_recounted disk s n
    rw [next_eq, next_eq disk scan s, hpull]
    rcases heq : s.pull disk with ⟨e | _ | row, t⟩
    · exact ⟨m, rfl⟩
    · exact ⟨m, rfl⟩
    · dsimp only
      rcases scan.deliver row with e | _ | passed
      · exact ⟨m, rfl⟩
      · exact ih _ (hleft ▸ left_lt_of_pull heq) t m rfl
      · exact ⟨m, rfl⟩

end ScanState

theorem outcome_recounted (disk : Disk) (scan : SeqScan) (s : ScanState) (n : ℕ) :
    (seqScan disk scan).outcome (s.recounted n) = (seqScan disk scan).outcome s := by
  refine (seqScan disk scan).outcome_eq_of_simulation (R := fun s t => ∃ n, s = t.recounted n)
    ?_ ⟨n, rfl⟩
  rintro _ t ⟨n, rfl⟩
  obtain ⟨m, hnext⟩ := t.next_recounted disk scan n
  have hnext' : (seqScan disk scan).next false (t.recounted n) = _ := hnext
  rw [hnext']
  exact ⟨rfl, fun _ _ => ⟨m, rfl⟩⟩

theorem Replays.seqScan (disk : Disk) (scan : SeqScan) :
    (RowSource.seqScan disk scan).Replays where
  init := by
    intro u s h v
    cases h
    exact ⟨_, rfl, outcome_recounted disk scan ⟨scan.fragments, none, u.scanned⟩ v.scanned⟩
  reset := by
    intro u s t h _
    cases h
    exact outcome_recounted disk scan ⟨scan.fragments, none, u.scanned⟩ t.scanned

namespace IndexScanState

/-- The answer of an index scan at a position, and the position behind it. -/
def answer (offsets : List ℕ) (position : ℕ) (reader : RowReader) :
    Except ExecError (Option Row) × ℕ :=
  match offsets[position]? with
  | none => (.ok none, position)
  | some offset =>
    match (reader.readAt offset).1 with
    | .error e => (.error (.storage e), position)
    | .ok row => (.ok (some row), position + 1)

/-- A call leaves the offsets and the file. -/
theorem exists_next (offsets : List ℕ) (position : ℕ) (reader : RowReader) (tally : Tally) :
    ∃ r n, reader.SameFile r ∧ next ⟨offsets, position, some reader, tally⟩ =
      ((answer offsets position reader).1,
        ⟨offsets, (answer offsets position reader).2, some r, n⟩) := by
  rw [next, answer]
  dsimp only
  cases offsets[position]? with
  | none => exact ⟨reader, tally, .refl reader, rfl⟩
  | some offset =>
    have hfile := reader.sameFile_readAt offset
    dsimp only
    rcases hread : reader.readAt offset with ⟨e | row, r⟩
    all_goals
      rw [hread] at hfile
      exact ⟨r, _, hfile, rfl⟩

theorem answer_eq {reader r : RowReader} (h : reader.SameFile r) (offsets : List ℕ)
    (position : ℕ) : answer offsets position r = answer offsets position reader := by
  rw [answer, answer]
  cases offsets[position]? with
  | none => rfl
  | some offset =>
    dsimp only
    rw [h.readAt_eq]

end IndexScanState

/-- The rows at some offsets of a file do not depend on where its reader stands. -/
theorem outcome_indexScan (disk : Disk) (scan : IndexScan) (offsets : List ℕ) (position : ℕ)
    {reader r : RowReader} (hfile : reader.SameFile r) (m n : Tally) :
    (indexScan disk scan).outcome ⟨offsets, position, some r, n⟩ =
      (indexScan disk scan).outcome ⟨offsets, position, some reader, m⟩ := by
  let R (s t : IndexScanState) : Prop := ∃ position r r' m n, r.SameFile r' ∧
    s = ⟨offsets, position, some r', n⟩ ∧ t = ⟨offsets, position, some r, m⟩
  have hstep : ∀ s t, R s t → s.next.1 = t.next.1 ∧ R s.next.2 t.next.2 := by
    rintro _ _ ⟨position, r, r', m, n, hfile, rfl, rfl⟩
    obtain ⟨q, k, hq, hnext⟩ := IndexScanState.exists_next offsets position r m
    obtain ⟨q', k', hq', hnext'⟩ := IndexScanState.exists_next offsets position r' n
    rw [hnext, hnext', IndexScanState.answer_eq hfile]
    exact ⟨rfl, _, q, q', k, k', hq.symm.trans (hfile.trans hq'), rfl, rfl⟩
  exact (indexScan disk scan).outcome_eq_of_simulation (R := R)
    (fun s t h => ⟨(hstep s t h).1, fun _ _ => (hstep s t h).2⟩)
    ⟨position, reader, r, m, n, hfile, rfl, rfl⟩

theorem Replays.indexScan (disk : Disk) (scan : IndexScan) :
    (RowSource.indexScan disk scan).Replays := by
  have hstarted : ∀ {u s : IndexScanState}, u.init scan disk = (.ok (), s) →
      ∃ offsets reader n, s = ⟨offsets, 0, some reader, n⟩ ∧
        ∀ v : IndexScanState, ∃ n, v.init scan disk = (.ok (), ⟨offsets, 0, some reader, n⟩) := by
    intro u s h
    rw [IndexScanState.init] at h
    unfold IndexScanState.init
    cases hfind : scan.find with
    | error e =>
      rw [hfind] at h
      cases h
    | ok offsets =>
      rw [hfind] at h
      cases hopen : RowReader.open? disk scan.data.path with
      | error e =>
        simp only [hopen] at h
        cases h
      | ok reader =>
        simp only [hopen] at h
        cases h
        exact ⟨offsets, reader, _, rfl, fun v => ⟨_, rfl⟩⟩
  refine ⟨fun {u s} h v => ?_, fun {u s t} h ht => ?_⟩
  · obtain ⟨offsets, reader, m, rfl, hinit⟩ := hstarted h
    obtain ⟨n, hv⟩ := hinit v
    exact ⟨_, hv, outcome_indexScan disk scan offsets 0 (.refl reader) m n⟩
  · obtain ⟨offsets, reader, m, rfl, -⟩ := hstarted h
    have hkept : ∃ position r n, reader.SameFile r ∧ t = ⟨offsets, position, some r, n⟩ := by
      refine answered_induction (I := fun t : IndexScanState => ∃ position r n,
        reader.SameFile r ∧ t = ⟨offsets, position, some r, n⟩)
        ⟨0, reader, m, .refl reader, rfl⟩ ?_ ht
      rintro _ row t ⟨position, r, n, hfile, rfl⟩ hnext
      obtain ⟨q, k, hq, hnext'⟩ := IndexScanState.exists_next offsets position r n
      obtain ⟨-, rfl⟩ := Prod.mk.inj (hnext'.symm.trans hnext)
      exact ⟨_, q, k, hfile.trans hq, rfl⟩
    obtain ⟨position, r, n, hfile, rfl⟩ := hkept
    exact outcome_indexScan disk scan offsets 0 hfile m n

/-! ## Selection and projection -/

section Passing

variable {child : RowSource} (predicate : BoundExpr) (targets : List BoundExpr)

theorem answered_nextKept {s t : child.State} {answer : Option Row}
    (h : child.nextKept predicate false s = (.ok answer, t)) :
    Relation.ReflTransGen child.Answered s t := by
  induction s using child.next_induction false with
  | error s e u hnext =>
    rw [nextKept_eq, hnext] at h
    cases h
  | finished s u hnext =>
    rw [nextKept_eq, hnext] at h
    cases h
    exact .single ⟨none, hnext⟩
  | row s row u hnext ih =>
    have hstep : child.Answered s u := ⟨some row, hnext⟩
    rw [nextKept_eq, hnext] at h
    dsimp only at h
    rcases hkeeps : predicate.keeps row with e | _ | _
    all_goals rw [hkeeps] at h
    · cases h
    · exact .head hstep (ih h)
    · cases h
      exact .single hstep

theorem nextKept_of_outcome_eq {s t : child.State} (h : child.outcome s = child.outcome t) :
    (child.nextKept predicate false s).1 = (child.nextKept predicate false t).1 ∧
      ∀ row, (child.nextKept predicate false s).1 = .ok (some row) →
        child.outcome (child.nextKept predicate false s).2 =
          child.outcome (child.nextKept predicate false t).2 := by
  induction hn : child.left s using Nat.strong_induction_on generalizing s t with
  | _ n ih =>
    obtain ⟨answer, s', t', hs, ht, hstates⟩ := child.next_of_outcome_eq h
    rw [nextKept_eq, nextKept_eq child predicate false t, hs, ht]
    rcases answer with e | _ | row
    · exact ⟨rfl, fun _ hrow => by cases hrow⟩
    · exact ⟨rfl, fun _ hrow => by cases hrow⟩
    · dsimp only
      rcases predicate.keeps row with e | _ | _
      · exact ⟨rfl, fun _ hrow => by cases hrow⟩
      · exact ih _ (hn ▸ child.left_lt hs) (hstates row rfl) rfl
      · exact ⟨rfl, fun _ _ => hstates row rfl⟩

theorem Replays.filter (h : child.Replays) : (child.filter predicate).Replays := by
  have houtcome : ∀ c d, child.outcome c = child.outcome d →
      (child.filter predicate).outcome c = (child.filter predicate).outcome d := fun c d hcd =>
    (child.filter predicate).outcome_eq_of_simulation
      (R := fun c d => child.outcome c = child.outcome d)
      (fun _ _ => nextKept_of_outcome_eq predicate) hcd
  refine h.of_child id id (fun _ => rfl) houtcome fun u c t hinit ht => houtcome _ _ ?_
  exact h.reset hinit (@answered_induction (child.filter predicate)
    (Relation.ReflTransGen child.Answered c) c t .refl
    (fun _ _ _ hs hnext => hs.trans (answered_nextKept predicate hnext)) ht)

theorem nextProjected_of_outcome_eq {s t : child.State} (h : child.outcome s = child.outcome t) :
    (child.nextProjected targets false s).1 = (child.nextProjected targets false t).1 ∧
      ∀ row, (child.nextProjected targets false s).1 = .ok (some row) →
        child.outcome (child.nextProjected targets false s).2 =
          child.outcome (child.nextProjected targets false t).2 := by
  obtain ⟨answer, s', t', hs, ht, hstates⟩ := child.next_of_outcome_eq h
  rw [nextProjected, nextProjected, hs, ht]
  rcases answer with e | _ | row
  · exact ⟨rfl, fun _ hrow => by cases hrow⟩
  · exact ⟨rfl, fun _ hrow => by cases hrow⟩
  · dsimp only
    cases targets.mapM (BoundExpr.eval row) with
    | error e => exact ⟨rfl, fun _ hrow => by cases hrow⟩
    | ok values => exact ⟨rfl, fun _ _ => hstates row rfl⟩

theorem answered_nextProjected {s t : child.State} {answer : Option Row}
    (h : child.nextProjected targets false s = (.ok answer, t)) : child.Answered s t := by
  rw [nextProjected] at h
  rcases hnext : child.next false s with ⟨e | _ | row, u⟩
  all_goals rw [hnext] at h
  · cases h
  · cases h
    exact ⟨none, hnext⟩
  · dsimp only at h
    cases htargets : targets.mapM (BoundExpr.eval row) with
    | error e =>
      rw [htargets] at h
      cases h
    | ok values =>
      rw [htargets] at h
      cases h
      exact ⟨some row, hnext⟩

theorem Replays.project (h : child.Replays) : (child.project targets).Replays := by
  have houtcome : ∀ c d, child.outcome c = child.outcome d →
      (child.project targets).outcome c = (child.project targets).outcome d := fun c d hcd =>
    (child.project targets).outcome_eq_of_simulation
      (R := fun c d => child.outcome c = child.outcome d)
      (fun _ _ => nextProjected_of_outcome_eq targets) hcd
  refine h.of_child id id (fun _ => rfl) houtcome fun u c t hinit ht => houtcome _ _ ?_
  exact h.reset hinit (@answered_induction (child.project targets)
    (Relation.ReflTransGen child.Answered c) c t .refl
    (fun _ _ _ hs hnext => hs.tail (answered_nextProjected targets hnext)) ht)

end Passing

/-! ## Sorting and grouping -/

section Kept

variable {child : RowSource} (order : RowOrder) (keys : List ℕ) (aggregates : List BoundAggregate)

/-- Behind calls that did not fail a sort is as it started, or has its rows. -/
theorem sorted_of_answered {c : child.State} {t : SortState child}
    (h : Relation.ReflTransGen (child.sort order).Answered ⟨c, none, []⟩ t) :
    t = ⟨c, none, []⟩ ∨ ∃ rows, child.outcome c = (rows, .ok ()) ∧
      t.sorted = some (order.sort rows) := by
  refine answered_induction (I := fun t : SortState child => t = ⟨c, none, []⟩ ∨
    ∃ rows, child.outcome c = (rows, .ok ()) ∧ t.sorted = some (order.sort rows))
    (.inl rfl) ?_ h
  rintro ⟨d, sorted, rest⟩ row t hs hnext
  change SortState.next order false ⟨d, sorted, rest⟩ = _ at hnext
  rw [SortState.next] at hnext
  rcases hs with hs | ⟨rows, hrows, hsorted⟩
  · cases hs
    dsimp only at hnext
    rcases hdrain : child.drain false c with ⟨e | rows, d⟩
    · rw [hdrain] at hnext
      cases hnext
    · rw [hdrain] at hnext
      cases hnext
      have hrest := child.drain_ok_iff.mp (congrArg Prod.fst hdrain)
      exact .inr ⟨rows, child.rest?_eq_some_iff.mp hrest, rfl⟩
  · cases hsorted
    cases hnext
    exact .inr ⟨rows, hrows, rfl⟩

theorem Replays.sort (h : child.Replays) : (child.sort order).Replays := by
  refine h.of_child SortState.child (fun c => ⟨c, none, []⟩) (fun _ => rfl)
    (fun c d hcd => by rw [outcome_sort, outcome_sort, hcd]) fun u c t _ ht => ?_
  rcases sorted_of_answered order ht with rfl | ⟨rows, hrows, hsorted⟩
  · rfl
  · obtain ⟨d, _, rest⟩ := t
    obtain rfl := hsorted
    rw [outcome_sort, hrows]
    exact (child.sort order).rest?_eq_some_iff.mp (rest?_sorted child order d _ _)

/-- Behind calls that did not fail a grouping is as it started, or has the rows of its groups. -/
theorem grouped_of_answered {c : child.State} {t : GroupState child}
    (h : Relation.ReflTransGen (aggregate keys aggregates child).Answered ⟨c, none, 0⟩ t) :
    t = ⟨c, none, 0⟩ ∨ ∃ gs,
      foldRows (grouped keys aggregates) (child.outcome c).2 (child.outcome c).1 [] =
        (gs, .ok ()) ∧ t.output = some (groupRows keys aggregates gs) := by
  refine answered_induction (I := fun t : GroupState child => t = ⟨c, none, 0⟩ ∨ ∃ gs,
    foldRows (grouped keys aggregates) (child.outcome c).2 (child.outcome c).1 [] =
      (gs, .ok ()) ∧ t.output = some (groupRows keys aggregates gs)) (.inl rfl) ?_ h
  have hpop : ∀ (s : GroupState child) {rows row t}, s.output = some rows →
      s.pop rows = (.ok row, t) → t.output = some rows := by
    intro s rows row t hs hpop
    rw [GroupState.pop] at hpop
    cases hrow : rows[s.position]? with
    | none =>
      rw [hrow] at hpop
      cases hpop
      exact hs
    | some found =>
      rw [hrow] at hpop
      cases hpop
      exact hs
  rintro ⟨d, output, position⟩ row t hs hnext
  change GroupState.next keys aggregates false ⟨d, output, position⟩ = _ at hnext
  rw [GroupState.next] at hnext
  rcases hs with hs | ⟨gs, hgs, houtput⟩
  · cases hs
    dsimp only at hnext
    rcases hfold : child.fold false (grouped keys aggregates) c [] with ⟨gs, e | ⟨⟩, d⟩
    · rw [hfold] at hnext
      cases hnext
    · rw [hfold] at hnext
      rw [← child.fold_eq_foldRows, hfold]
      exact .inr ⟨gs, rfl, hpop _ rfl hnext⟩
  · cases houtput
    exact .inr ⟨gs, hgs, hpop _ rfl hnext⟩

theorem Replays.aggregate (h : child.Replays) :
    (RowSource.aggregate keys aggregates child).Replays := by
  refine h.of_child GroupState.child (fun c => ⟨c, none, 0⟩) (fun _ => rfl)
    (fun c d hcd => by rw [outcome_aggregate, outcome_aggregate, hcd]) fun u c t _ ht => ?_
  rcases grouped_of_answered keys aggregates ht with rfl | ⟨gs, hgs, houtput⟩
  · rfl
  · obtain ⟨d, _, position⟩ := t
    obtain rfl := houtput
    rw [outcome_aggregate, hgs]
    exact (RowSource.aggregate keys aggregates child).rest?_eq_some_iff.mp
      (rest?_grouped keys aggregates child d _ (Nat.zero_le _))

end Kept

/-! ## Joining -/

section Joining

variable {left right : RowSource} (type : JoinType) (condition : Option BoundExpr) (width : ℕ)

/-- A call leaves the right rows, and calls the left side only while it does not fail. -/
theorem JoinState.kept_of_next {s t : JoinState left right} {answer : Option Row}
    (h : s.next type condition width false = (.ok answer, t)) :
    t.rows = s.rows ∧ Relation.ReflTransGen left.Answered s.left t.left := by
  fun_induction JoinState.next type condition width false s with
  | case1 | case5 => cases h
  | case2 | case3 =>
    cases h
    exact ⟨rfl, .refl⟩
  | case4 s row hrow p hprobe hpad ih => exact ih h
  | case6 s hnone u hnext =>
    cases h
    exact ⟨rfl, .single ⟨none, hnext⟩⟩
  | case7 s hnone row u hnext ih =>
    obtain ⟨hrows, hleft⟩ := ih h
    exact ⟨hrows, .head ⟨some row, hnext⟩ hleft⟩

/-- Joins stand at one place if all that differs is the right side and, with one outcome, the left
side. -/
inductive JoinState.SamePlace : JoinState left right → JoinState left right → Prop
  | mk {l l' : left.State} (r r' : right.State) (rows : List Row) (current : Option Row)
    (position : ℕ) (matched : Bool) (h : left.outcome l = left.outcome l') :
    SamePlace ⟨l, r, rows, current, position, matched⟩ ⟨l', r', rows, current, position, matched⟩

theorem JoinState.SamePlace.next {s t : JoinState left right} (h : s.SamePlace t) :
    (s.next type condition width false).1 = (t.next type condition width false).1 ∧
      ∀ row, (s.next type condition width false).1 = .ok (some row) →
        (s.next type condition width false).2.SamePlace (t.next type condition width false).2 := by
  fun_induction JoinState.next type condition width false s generalizing t with
  | case1 s row hrow e p hprobe =>
    obtain ⟨r, r', rows, _, _, matched, hleft⟩ := h
    cases hrow
    rw [JoinState.next_current, hprobe]
    exact ⟨rfl, fun _ hrow => by cases hrow⟩
  | case2 s row hrow joined p hprobe =>
    obtain ⟨r, r', rows, _, _, matched, hleft⟩ := h
    cases hrow
    rw [JoinState.next_current, hprobe]
    exact ⟨rfl, fun _ _ => ⟨r, r', rows, some row, p, true, hleft⟩⟩
  | case3 s row hrow p hprobe hpad =>
    obtain ⟨r, r', rows, _, _, matched, hleft⟩ := h
    cases hrow
    rw [JoinState.next_current, hprobe]
    dsimp only
    rw [if_pos hpad]
    exact ⟨rfl, fun _ _ => ⟨r, r', rows, none, p, matched, hleft⟩⟩
  | case4 s row hrow p hprobe hpad ih =>
    obtain ⟨r, r', rows, _, _, matched, hleft⟩ := h
    cases hrow
    rw [JoinState.next_current _ _ _ _ _ r', hprobe]
    dsimp only
    rw [if_neg hpad]
    exact ih ⟨r, r', rows, none, p, matched, hleft⟩
  | case5 s hnone e u hnext =>
    obtain ⟨r, r', rows, _, position, matched, hleft⟩ := h
    cases hnone
    obtain ⟨_, _, l', hl, hl', -⟩ := left.next_of_outcome_eq hleft
    cases hl.symm.trans hnext
    rw [JoinState.next_between, hl']
    exact ⟨rfl, fun _ hrow => by cases hrow⟩
  | case6 s hnone u hnext =>
    obtain ⟨r, r', rows, _, position, matched, hleft⟩ := h
    cases hnone
    obtain ⟨_, _, l', hl, hl', -⟩ := left.next_of_outcome_eq hleft
    cases hl.symm.trans hnext
    rw [JoinState.next_between, hl']
    exact ⟨rfl, fun _ hrow => by cases hrow⟩
  | case7 s hnone row u hnext ih =>
    obtain ⟨r, r', rows, _, position, matched, hleft⟩ := h
    cases hnone
    obtain ⟨_, _, l', hl, hl', hstates⟩ := left.next_of_outcome_eq hleft
    cases hl.symm.trans hnext
    rw [JoinState.next_between _ _ _ _ _ r', hl']
    exact ih ⟨r, r', rows, some row, 0, false, hstates row rfl⟩

theorem outcome_join_eq {s t : JoinState left right} (h : s.SamePlace t) :
    (join type condition width left right).outcome s =
      (join type condition width left right).outcome t :=
  (join type condition width left right).outcome_eq_of_simulation (R := JoinState.SamePlace)
    (fun _ _ hst => hst.next type condition width) h

theorem Replays.join (hleft : left.Replays) (hright : right.Replays) :
    (RowSource.join type condition width left right).Replays := by
  refine ⟨fun {u s} h v => ?_, fun {u s t} h ht => ?_⟩
  · obtain ⟨l, q, rows, hl, hq, hrows, rfl⟩ := init_join_ok_iff.mp h
    obtain ⟨l', hl', hsame⟩ := hleft.init hl v.left
    obtain ⟨q', hq', hsame'⟩ := hright.init hq v.right
    exact ⟨_, init_join_ok_iff.mpr ⟨l', q', rows, hl', hq', hsame'.trans hrows, rfl⟩,
      outcome_join_eq type condition width ⟨_, _, rows, none, 0, false, hsame⟩⟩
  · obtain ⟨l, q, rows, hl, -, -, rfl⟩ := init_join_ok_iff.mp h
    obtain ⟨hrows, hreach⟩ := @answered_induction (RowSource.join type condition width left right)
      (fun t : JoinState left right =>
        t.rows = rows ∧ Relation.ReflTransGen left.Answered l t.left) _ t
      ⟨rfl, .refl⟩ (fun s row t hs hnext => by
        obtain ⟨hkept, hcalled⟩ := JoinState.kept_of_next type condition width hnext
        exact ⟨hkept.trans hs.1, hs.2.trans hcalled⟩) ht
    obtain ⟨d, r', _, current, position, matched⟩ := t
    obtain rfl := hrows
    exact outcome_join_eq type condition width
      ⟨r', _, _, none, 0, false, hleft.reset hl hreach⟩

end Joining

end BlockQuery.RowSource
