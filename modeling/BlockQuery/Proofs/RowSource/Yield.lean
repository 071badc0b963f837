import Mathlib.Tactic
import BlockQuery.RowSource.Aggregate
import BlockQuery.RowSource.Filter
import BlockQuery.RowSource.Join
import BlockQuery.RowSource.Sort
import BlockQuery.RowSource

/-!
# What sources yield

A source that is drained without cancellation yields a list of rows, or fails.
What a source made of others yields depends only on what these yield.
-/

namespace BlockQuery.RowSource

/-- The rows that are still to come, unless there is an error. -/
def rest? (src : RowSource) (s : src.State) : Option (List Row) :=
  match _h : src.next false s with
  | (.error _, _) => none
  | (.ok none, _) => some []
  | (.ok (some row), t) => (src.rest? t).map (row :: ·)
termination_by src.left s
decreasing_by exact src.left_lt _h

/-- The rows that come after a fresh start, unless there is an error. -/
def yield? (src : RowSource) : Option (List Row) :=
  match src.init false src.start with
  | (.error _, _) => none
  | (.ok _, s) => src.rest? s

/-- Induction on the rows that are left. -/
theorem next_induction (src : RowSource) (cancelled : Bool) {motive : src.State → Prop}
    (error : ∀ s e t, src.next cancelled s = (.error e, t) → motive s)
    (finished : ∀ s t, src.next cancelled s = (.ok none, t) → motive s)
    (row : ∀ s row t, src.next cancelled s = (.ok (some row), t) → motive t → motive s)
    (s : src.State) : motive s := by
  induction hleft : src.left s using Nat.strong_induction_on generalizing s with
  | _ left ih =>
    rcases hnext : src.next cancelled s with ⟨e | _ | r, t⟩
    · exact error s e t hnext
    · exact finished s t hnext
    · exact row s r t hnext (ih _ (hleft ▸ src.left_lt hnext) t rfl)

section Rest

variable (src : RowSource) {s t : src.State}

theorem rest?_of_error {e : ExecError} (h : src.next false s = (.error e, t)) :
    src.rest? s = none := by
  rw [rest?]
  split <;> simp_all

theorem rest?_of_none (h : src.next false s = (.ok none, t)) : src.rest? s = some [] := by
  rw [rest?]
  split <;> simp_all

theorem rest?_of_some {row : Row} (h : src.next false s = (.ok (some row), t)) :
    src.rest? s = (src.rest? t).map (row :: ·) := by
  rw [rest?]
  split <;> simp_all

/-- What is to come depends on the next row and what comes behind it. -/
theorem rest?_congr {s s' : src.State} (h : src.next false s = src.next false s') :
    src.rest? s = src.rest? s' := by
  rw [rest?, rest?]
  split <;> split <;> simp_all

/-- A fold ends without an error if there are rows to take in and each is. -/
theorem fold_ok_iff {α : Type} {f : Row → α → Except ExecError α} {a b : α} :
    (∃ t, src.fold false f s a = (b, .ok (), t)) ↔
      ∃ rows, src.rest? s = some rows ∧ rows.foldlM (fun a row => f row a) a = .ok b := by
  fun_induction RowSource.fold src false f s a with
  | case1 s a e t hnext => simp [src.rest?_of_error hnext]
  | case2 s a t hnext =>
    rw [src.rest?_of_none hnext]
    constructor
    · rintro ⟨_, h⟩
      obtain rfl : a = b := congrArg Prod.fst h
      exact ⟨[], rfl, rfl⟩
    · rintro ⟨rows, h, hb⟩
      cases h
      cases hb
      exact ⟨t, rfl⟩
  | case3 s a row t hnext e hf =>
    rw [src.rest?_of_some hnext]
    constructor
    · rintro ⟨_, h⟩
      cases h
    · rintro ⟨rows, h, hb⟩
      obtain ⟨rest, _, rfl⟩ := Option.map_eq_some_iff.mp h
      rw [List.foldlM_cons, hf] at hb
      cases hb
  | case4 s a row t hnext c hf ih =>
    rw [ih, src.rest?_of_some hnext]
    constructor
    · rintro ⟨rest, h, hb⟩
      exact ⟨row :: rest, by rw [h]; rfl, by rw [List.foldlM_cons, hf]; exact hb⟩
    · rintro ⟨rows, h, hb⟩
      obtain ⟨rest, hrest, rfl⟩ := Option.map_eq_some_iff.mp h
      rw [List.foldlM_cons, hf] at hb
      exact ⟨rest, hrest, hb⟩

theorem foldlM_ok {α : Type} (g : Row → α → α) (rows : List Row) (a : α) :
    rows.foldlM (fun a row => (.ok (g row a) : Except ExecError α)) a =
      .ok (rows.foldl (fun a row => g row a) a) := by
  induction rows generalizing a with
  | nil => rfl
  | cons row rows ih => exact ih (g row a)

theorem gather_ok_iff {rows : List Row} :
    (∃ t, src.gather false s [] = (rows, .ok (), t)) ↔ src.rest? s = some rows.reverse := by
  unfold gather
  rw [fold_ok_iff]
  constructor
  · rintro ⟨found, h, hrows⟩
    rw [foldlM_ok, List.foldl_flip_cons_eq_append, List.append_nil, List.map_id'] at hrows
    cases hrows
    rw [h, List.reverse_reverse]
  · intro h
    refine ⟨_, h, ?_⟩
    rw [foldlM_ok, List.foldl_flip_cons_eq_append, List.append_nil, List.map_id',
      List.reverse_reverse]

theorem drain_ok_iff {rows : List Row} :
    (src.drain false s).1 = .ok rows ↔ src.rest? s = some rows := by
  have hgather := @gather_ok_iff src s rows.reverse
  rw [List.reverse_reverse] at hgather
  rw [← hgather, drain]
  rcases src.gather false s [] with ⟨found, _ | u, t⟩
  · simp
  · constructor
    · intro h
      cases h
      exact ⟨t, by rw [List.reverse_reverse]⟩
    · rintro ⟨_, h⟩
      cases h
      simp

end Rest

theorem rows_ok_iff {src : RowSource} {rows : List Row} :
    (src.rows false).1 = .ok rows ↔ src.yield? = some rows := by
  unfold RowSource.rows yield?
  rcases src.init false src.start with ⟨_ | u, s⟩
  · simp
  · have hdrain := @drain_ok_iff src s rows
    rw [← hdrain]
    dsimp only
    rcases src.drain false s with ⟨_ | found, t⟩ <;> rfl

/-! ## Given rows -/

theorem rest?_values (given rows : List Row) : (values given).rest? rows = some rows := by
  induction rows with
  | nil =>
    have hnext : (values given).next false [] = (.ok none, []) := rfl
    exact (values given).rest?_of_none hnext
  | cons row rows ih =>
    have hnext : (values given).next false (row :: rows) = (.ok (some row), rows) := rfl
    rw [(values given).rest?_of_some hnext, ih]
    rfl

theorem yield?_values (rows : List Row) : (values rows).yield? = some rows := rest?_values rows rows

/-! ## Selection and projection -/

/-- The rows that pass a test, unless the test fails on one. -/
def keep (test : Row → Except EvalError Bool) : List Row → Option (List Row)
  | [] => some []
  | row :: rows =>
    match test row with
    | .error _ => none
    | .ok true => (keep test rows).map (row :: ·)
    | .ok false => keep test rows

/-- Whether a test holds of a row without an error. -/
def passes (test : Row → Except EvalError Bool) (row : Row) : Bool :=
  (test row).toOption == some true

theorem keep_eq_some {test : Row → Except EvalError Bool} {rows kept : List Row}
    (h : keep test rows = some kept) :
    (∀ row ∈ rows, ∃ b, test row = .ok b) ∧ kept = rows.filter (passes test) := by
  induction rows generalizing kept with
  | nil =>
    cases h
    exact ⟨fun row hrow => absurd hrow List.not_mem_nil, rfl⟩
  | cons row rows ih =>
    rw [keep] at h
    split at h
    next => cases h
    next htest =>
      obtain ⟨rest, hrest, rfl⟩ := Option.map_eq_some_iff.mp h
      obtain ⟨hall, rfl⟩ := ih hrest
      refine ⟨List.forall_mem_cons.mpr ⟨⟨true, htest⟩, hall⟩, ?_⟩
      rw [List.filter_cons_of_pos]
      rw [passes, htest]
      rfl
    next htest =>
      obtain ⟨hall, rfl⟩ := ih h
      refine ⟨List.forall_mem_cons.mpr ⟨⟨false, htest⟩, hall⟩, ?_⟩
      rw [List.filter_cons_of_neg]
      rw [passes, htest]
      exact Bool.false_ne_true

theorem keep_of_forall {test : Row → Except EvalError Bool} {rows : List Row}
    (h : ∀ row ∈ rows, ∃ b, test row = .ok b) :
    keep test rows = some (rows.filter (passes test)) := by
  induction rows with
  | nil => rfl
  | cons row rows ih =>
    obtain ⟨⟨b, hb⟩, hrest⟩ := List.forall_mem_cons.mp h
    have hpasses : passes test row = b := by
      rw [passes, hb]
      cases b <;> rfl
    rw [keep, hb, ih hrest]
    cases b
    · rw [List.filter_cons_of_neg (by rw [hpasses]; exact Bool.false_ne_true)]
    · rw [List.filter_cons_of_pos hpasses]
      rfl

/-- A filter asks its child for one row, and goes on if the predicate drops it. -/
theorem nextKept_eq (child : RowSource) (predicate : BoundExpr) (cancelled : Bool)
    (s : child.State) : child.nextKept predicate cancelled s =
      match child.next cancelled s with
      | (.error e, t) => (.error e, t)
      | (.ok none, t) => (.ok none, t)
      | (.ok (some row), t) =>
        match predicate.keeps row with
        | .error e => (.error (.eval e), t)
        | .ok true => (.ok (some row), t)
        | .ok false => child.nextKept predicate cancelled t := by
  rw [nextKept]
  rcases child.next cancelled s with ⟨e | _ | row, t⟩ <;> rfl

theorem rest?_filter (child : RowSource) (predicate : BoundExpr) (s : child.State) :
    (child.filter predicate).rest? s = (child.rest? s).bind (keep predicate.keeps) := by
  have hkept : ∀ s, (child.filter predicate).next false s = child.nextKept predicate false s :=
    fun _ => rfl
  induction s using child.next_induction false with
  | error s e t hnext =>
    have herror : child.nextKept predicate false s = (.error e, t) := by
      rw [nextKept_eq, hnext]
    rw [child.rest?_of_error hnext]
    exact (child.filter predicate).rest?_of_error ((hkept s).trans herror)
  | finished s t hnext =>
    have hnone : child.nextKept predicate false s = (.ok none, t) := by
      rw [nextKept_eq, hnext]
    rw [child.rest?_of_none hnext]
    exact (child.filter predicate).rest?_of_none ((hkept s).trans hnone)
  | row s row t hnext hrest =>
    rw [child.rest?_of_some hnext]
    rcases hkeeps : predicate.keeps row with e | _ | _
    · have herror : child.nextKept predicate false s = (.error (.eval e), t) := by
        rw [nextKept_eq, hnext]
        dsimp only
        rw [hkeeps]
      rw [show (child.filter predicate).rest? s = none from
        (child.filter predicate).rest?_of_error ((hkept s).trans herror)]
      cases child.rest? t <;> simp [keep, hkeeps]
    · have hskip : child.nextKept predicate false s = child.nextKept predicate false t := by
        rw [nextKept_eq, hnext]
        dsimp only
        rw [hkeeps]
      rw [show (child.filter predicate).rest? s = (child.filter predicate).rest? t from
        (child.filter predicate).rest?_congr hskip, hrest]
      cases child.rest? t <;> simp [keep, hkeeps]
    · have hsome : child.nextKept predicate false s = (.ok (some row), t) := by
        rw [nextKept_eq, hnext]
        dsimp only
        rw [hkeeps]
      rw [show (child.filter predicate).rest? s =
          ((child.filter predicate).rest? t).map (row :: ·) from
        (child.filter predicate).rest?_of_some ((hkept s).trans hsome), hrest]
      cases child.rest? t <;> simp [keep, hkeeps]

/-- A source that is started as another one is, and then makes its rows of the rest. -/
theorem yield?_of_rest? {child : RowSource} {src : RowSource} {f : List Row → Option (List Row)}
    (put : child.State → src.State)
    (hinit : src.init false src.start =
      ((child.init false child.start).1, put (child.init false child.start).2))
    (hrest : ∀ s, src.rest? (put s) = (child.rest? s).bind f) :
    src.yield? = child.yield?.bind f := by
  unfold yield?
  rw [hinit]
  rcases child.init false child.start with ⟨_ | u, s⟩
  · rfl
  · exact hrest s

theorem yield?_filter (child : RowSource) (predicate : BoundExpr) :
    (child.filter predicate).yield? = child.yield?.bind (keep predicate.keeps) :=
  yield?_of_rest? id rfl (rest?_filter child predicate)

/-- The rows with targets evaluated on them, unless one fails. -/
def projected (targets : List BoundExpr) (rows : List Row) : Option (List Row) :=
  rows.mapM fun row => (targets.mapM (BoundExpr.eval row)).toOption

theorem rest?_project (child : RowSource) (targets : List BoundExpr) (s : child.State) :
    (child.project targets).rest? s = (child.rest? s).bind (projected targets) := by
  have hproject : ∀ s, (child.project targets).next false s =
      child.nextProjected targets false s := fun _ => rfl
  induction s using child.next_induction false with
  | error s e t hnext =>
    have herror : child.nextProjected targets false s = (.error e, t) := by
      rw [nextProjected, hnext]
    rw [child.rest?_of_error hnext]
    exact (child.project targets).rest?_of_error ((hproject s).trans herror)
  | finished s t hnext =>
    have hnone : child.nextProjected targets false s = (.ok none, t) := by
      rw [nextProjected, hnext]
    rw [child.rest?_of_none hnext]
    exact (child.project targets).rest?_of_none ((hproject s).trans hnone)
  | row s row t hnext hrest =>
    rw [child.rest?_of_some hnext]
    rcases heval : targets.mapM (BoundExpr.eval row) with e | values
    · have herror : child.nextProjected targets false s = (.error (.eval e), t) := by
        rw [nextProjected, hnext]
        simp [heval]
      rw [show (child.project targets).rest? s = none from
        (child.project targets).rest?_of_error ((hproject s).trans herror)]
      cases child.rest? t <;> simp [projected, heval, Except.toOption]
    · have hsome : child.nextProjected targets false s = (.ok (some values), t) := by
        rw [nextProjected, hnext]
        simp [heval]
      rw [show (child.project targets).rest? s =
          ((child.project targets).rest? t).map (values :: ·) from
        (child.project targets).rest?_of_some ((hproject s).trans hsome), hrest]
      cases child.rest? t with
      | none => rfl
      | some rows =>
        change (projected targets rows).map (values :: ·) = projected targets (row :: rows)
        rw [projected, projected, List.mapM_cons, heval, Option.map_eq_bind]
        rfl

theorem yield?_project (child : RowSource) (targets : List BoundExpr) :
    (child.project targets).yield? = child.yield?.bind (projected targets) :=
  yield?_of_rest? id rfl (rest?_project child targets)

/-! ## Sorting -/

theorem rest?_sorted (child : RowSource) (order : RowOrder) (c : child.State)
    (sorted rows : List Row) : (child.sort order).rest? ⟨c, some sorted, rows⟩ = some rows := by
  induction rows with
  | nil =>
    have hnext : (child.sort order).next false ⟨c, some sorted, []⟩ =
        (.ok none, ⟨c, some sorted, []⟩) := rfl
    exact (child.sort order).rest?_of_none hnext
  | cons row rows ih =>
    have hnext : (child.sort order).next false ⟨c, some sorted, row :: rows⟩ =
        (.ok (some row), ⟨c, some sorted, rows⟩) := rfl
    rw [(child.sort order).rest?_of_some hnext, ih]
    rfl

theorem rest?_sort (child : RowSource) (order : RowOrder) (c : child.State) :
    (child.sort order).rest? ⟨c, none, []⟩ = (child.rest? c).bind (some ∘ order.sort) := by
  rcases hdrain : child.drain false c with ⟨e | rows, t⟩
  · have hnone : child.rest? c = none := by
      rw [Option.eq_none_iff_forall_not_mem]
      intro rows hrows
      have hok := child.drain_ok_iff.mpr hrows
      rw [hdrain] at hok
      cases hok
    have hnext : (child.sort order).next false ⟨c, none, []⟩ = (.error e, ⟨t, none, []⟩) := by
      change SortState.next order false ⟨c, none, []⟩ = _
      rw [SortState.next]
      simp only [hdrain]
      rfl
    rw [hnone]
    exact (child.sort order).rest?_of_error hnext
  · have hsome : child.rest? c = some rows := child.drain_ok_iff.mp (by rw [hdrain])
    have hnext : (child.sort order).next false ⟨c, none, []⟩ =
        (child.sort order).next false ⟨t, some (order.sort rows), order.sort rows⟩ := by
      change SortState.next order false ⟨c, none, []⟩ = SortState.pop _
      rw [SortState.next]
      simp only [hdrain]
    rw [hsome, (child.sort order).rest?_congr hnext]
    exact rest?_sorted child order t _ _

theorem yield?_sort (child : RowSource) (order : RowOrder) :
    (child.sort order).yield? = child.yield?.map order.sort := by
  rw [Option.map_eq_bind]
  exact yield?_of_rest? (fun c => ⟨c, none, []⟩) rfl (rest?_sort child order)

/-! ## Grouping -/

theorem rest?_grouped (keys : List ℕ) (aggregates : List BoundAggregate) (child : RowSource)
    (c : child.State) (rows : List Row) {position : ℕ} (h : position ≤ rows.length) :
    (aggregate keys aggregates child).rest? ⟨c, some rows, position⟩ =
      some (rows.drop position) := by
  induction hn : rows.length - position generalizing position with
  | zero =>
    have hend : rows[position]? = none := List.getElem?_eq_none (by omega)
    have hnext : (aggregate keys aggregates child).next false ⟨c, some rows, position⟩ =
        (.ok none, ⟨c, some rows, position⟩) := by
      change GroupState.pop ⟨c, some rows, position⟩ rows = _
      rw [GroupState.pop]
      simp only [hend]
      rfl
    rw [(aggregate keys aggregates child).rest?_of_none hnext, List.drop_eq_nil_of_le (by omega)]
  | succ n ih =>
    have hlt : position < rows.length := by omega
    have hnext : (aggregate keys aggregates child).next false ⟨c, some rows, position⟩ =
        (.ok (some rows[position]), ⟨c, some rows, position + 1⟩) := by
      change GroupState.pop ⟨c, some rows, position⟩ rows = _
      rw [GroupState.pop]
      simp only [List.getElem?_eq_getElem hlt]
      rfl
    have hrest := ih (show position + 1 ≤ rows.length from hlt) (by omega)
    rw [(aggregate keys aggregates child).rest?_of_some hnext, hrest,
      List.drop_eq_getElem_cons hlt]
    rfl

/-- The rows of the groups of some rows, unless one cannot be taken in. -/
def groupsOf (keys : List ℕ) (aggregates : List BoundAggregate) (rows : List Row) :
    Option (List Row) :=
  ((rows.foldlM (fun gs row => grouped keys aggregates row gs) []).toOption).map
    (groupRows keys aggregates)

theorem rest?_aggregate (keys : List ℕ) (aggregates : List BoundAggregate) (child : RowSource)
    (c : child.State) :
    (aggregate keys aggregates child).rest? ⟨c, none, 0⟩ =
      (child.rest? c).bind (groupsOf keys aggregates) := by
  have hfold := @fold_ok_iff child c _ (grouped keys aggregates) []
  rcases hrun : child.fold false (grouped keys aggregates) c [] with ⟨gs, e | u, t⟩
  · have hnext : (aggregate keys aggregates child).next false ⟨c, none, 0⟩ =
        (.error e, ⟨t, none, 0⟩) := by
      change GroupState.next keys aggregates false ⟨c, none, 0⟩ = _
      rw [GroupState.next]
      simp only [hrun]
      rfl
    rw [(aggregate keys aggregates child).rest?_of_error hnext]
    cases hrest : child.rest? c with
    | none => rfl
    | some rows =>
      cases hgs : rows.foldlM (fun gs row => grouped keys aggregates row gs) [] with
      | error fault => simp [groupsOf, hgs, Except.toOption]
      | ok found =>
        obtain ⟨_, hfound⟩ := hfold.mpr ⟨rows, hrest, hgs⟩
        rw [hrun] at hfound
        cases hfound
  · obtain ⟨rows, hrest, hgs⟩ := hfold.mp ⟨t, hrun⟩
    have hnext : (aggregate keys aggregates child).next false ⟨c, none, 0⟩ =
        (aggregate keys aggregates child).next false
          ⟨t, some (groupRows keys aggregates gs), 0⟩ := by
      change GroupState.next keys aggregates false ⟨c, none, 0⟩ = GroupState.pop _ _
      rw [GroupState.next]
      simp only [hrun]
    rw [(aggregate keys aggregates child).rest?_congr hnext, hrest,
      rest?_grouped keys aggregates child t _ (Nat.zero_le _)]
    simp [groupsOf, hgs, Except.toOption]

theorem yield?_aggregate (keys : List ℕ) (aggregates : List BoundAggregate) (child : RowSource) :
    (aggregate keys aggregates child).yield? = child.yield?.bind (groupsOf keys aggregates) :=
  yield?_of_rest? (fun c => ⟨c, none, 0⟩) rfl (rest?_aggregate keys aggregates child)

end BlockQuery.RowSource
