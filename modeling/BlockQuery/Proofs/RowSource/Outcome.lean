import BlockQuery.Proofs.RowSource.Yield

/-!
# How the rows of a source end

The outcome of a source in some state is the rows that are still to come, and whether they end
behind the last one or in an error.  A source is free to suspend after each row: what was taken
and what is still to come always make up the same outcome.
-/

namespace BlockQuery.RowSource

/-- The rows that are still to come, and the error that ends them, if there is one. -/
def outcome (src : RowSource) (s : src.State) : List Row × Except ExecError Unit :=
  ((src.gather false s []).1.reverse, (src.gather false s []).2.1)

/-- Takes rows one by one into a value, until an error; `ended` is what comes behind the rows. -/
def foldRows {α : Type} (f : Row → α → Except ExecError α) (ended : Except ExecError Unit) :
    List Row → α → α × Except ExecError Unit
  | [], a => (a, ended)
  | row :: rows, a =>
    match f row a with
    | .error e => (a, .error e)
    | .ok b => foldRows f ended rows b

/-- The rows that a number of calls give and the state behind them, unless a call fails.  A call
may also find the end. -/
def take? (src : RowSource) : ℕ → src.State → Option (List Row × src.State)
  | 0, s => some ([], s)
  | n + 1, s =>
    match src.next false s with
    | (.error _, _) => none
    | (.ok row, t) => (src.take? n t).map fun (rows, u) => (row.toList ++ rows, u)

/-- Whether a source yields the given rows one after the other, wherever it suspends: those that
were taken are the first ones, and the others are still to come. -/
def YieldsInTurn (src : RowSource) (s : src.State) (rows : List Row) : Prop :=
  ∀ k ≤ rows.length, ∃ t, src.take? k s = some (rows.take k, t) ∧
    (src.drain false t).1 = .ok (rows.drop k)

/-- Rows that end without an error are taken in unless one is refused. -/
theorem foldRows_ok {α : Type} (f : Row → α → Except ExecError α) (rows : List Row) (a : α) :
    ((foldRows f (.ok ()) rows a).2.map fun _ => (foldRows f (.ok ()) rows a).1) =
      rows.foldlM (fun a row => f row a) a := by
  induction rows generalizing a with
  | nil => rfl
  | cons row rows ih =>
    rw [foldRows, List.foldlM_cons]
    cases f row a with
    | error e => rfl
    | ok b => exact ih b

section Outcome

variable (src : RowSource) {s t : src.State} {row : Row} {rows : List Row}

theorem fold_eq {α : Type} (cancelled : Bool) (f : Row → α → Except ExecError α) (s : src.State)
    (a : α) : src.fold cancelled f s a =
      match src.next cancelled s with
      | (.error e, t) => (a, .error e, t)
      | (.ok none, t) => (a, .ok (), t)
      | (.ok (some row), t) =>
        match f row a with
        | .error e => (a, .error e, t)
        | .ok b => src.fold cancelled f t b := by
  rw [fold]
  rcases src.next cancelled s with ⟨e | _ | row, t⟩ <;> rfl

/-- Rows that were taken before stand behind the others. -/
theorem gather_eq (cancelled : Bool) (s : src.State) (done : List Row) :
    src.gather cancelled s done =
      ((src.gather cancelled s []).1 ++ done, (src.gather cancelled s []).2) := by
  unfold gather
  induction s using src.next_induction cancelled generalizing done with
  | error s _ _ hnext | finished s _ hnext =>
    rw [fold_eq, src.fold_eq cancelled _ s [], hnext]
    rfl
  | row s row t hnext ih =>
    rw [fold_eq, src.fold_eq cancelled _ s [], hnext]
    dsimp only
    rw [ih (row :: done), ih [row], List.append_assoc]
    rfl

theorem outcome_of_error {e : ExecError} (h : src.next false s = (.error e, t)) :
    src.outcome s = ([], .error e) := by
  rw [outcome, gather, fold_eq, h]
  rfl

theorem outcome_of_none (h : src.next false s = (.ok none, t)) :
    src.outcome s = ([], .ok ()) := by
  rw [outcome, gather, fold_eq, h]
  rfl

theorem outcome_of_some (h : src.next false s = (.ok (some row), t)) :
    src.outcome s = (row :: (src.outcome t).1, (src.outcome t).2) := by
  have hgather : src.gather false s [] = src.gather false t [row] := by
    rw [gather, fold_eq, h]
    rfl
  rw [outcome, hgather, gather_eq, List.reverse_append]
  rfl

/-- A fold takes in the rows of the outcome. -/
theorem fold_eq_foldRows {α : Type} (f : Row → α → Except ExecError α) (s : src.State) (a : α) :
    ((src.fold false f s a).1, (src.fold false f s a).2.1) =
      foldRows f (src.outcome s).2 (src.outcome s).1 a := by
  induction s using src.next_induction false generalizing a with
  | error s e t hnext =>
    rw [fold_eq, hnext, src.outcome_of_error hnext]
    rfl
  | finished s t hnext =>
    rw [fold_eq, hnext, src.outcome_of_none hnext]
    rfl
  | row s row t hnext ih =>
    rw [fold_eq, hnext, src.outcome_of_some hnext, foldRows]
    dsimp only
    cases f row a with
    | error e => rfl
    | ok b => exact ih b

/-- Rows end without an error if they are all there is to yield. -/
theorem rest?_eq_some_iff : src.rest? s = some rows ↔ src.outcome s = (rows, .ok ()) := by
  have hgather := @gather_ok_iff src s rows.reverse
  rw [List.reverse_reverse] at hgather
  rw [← hgather, outcome]
  constructor
  · rintro ⟨t, h⟩
    rw [h, List.reverse_reverse]
  · intro h
    obtain ⟨hrows, hended⟩ := Prod.mk.inj h
    refine ⟨(src.gather false s []).2.2, ?_⟩
    rw [← hrows, List.reverse_reverse, ← hended]

theorem drain_eq : (src.drain false s).1 = (src.outcome s).2.map fun _ => (src.outcome s).1 := by
  rw [drain, outcome]
  rcases src.gather false s [] with ⟨found, _ | _, t⟩ <;> rfl

theorem rows_of_init (h : src.init false src.start = (.ok (), s)) :
    (src.rows false).1 = (src.outcome s).2.map fun _ => (src.outcome s).1 := by
  rw [← drain_eq, RowSource.rows, h]
  dsimp only
  rcases src.drain false s with ⟨e | found, t⟩ <;> rfl

/-- Two states with one outcome give the same answer to a call, and behind a row there are again
two such states. -/
theorem next_of_outcome_eq (h : src.outcome s = src.outcome t) :
    ∃ answer s' t', src.next false s = (answer, s') ∧ src.next false t = (answer, t') ∧
      ∀ row, answer = .ok (some row) → src.outcome s' = src.outcome t' := by
  rcases hs : src.next false s with ⟨e | _ | row, s'⟩
  · rw [src.outcome_of_error hs] at h
    rcases ht : src.next false t with ⟨e' | _ | row', t'⟩
    · rw [src.outcome_of_error ht] at h
      cases h
      exact ⟨.error e, s', t', rfl, rfl, fun _ hrow => by cases hrow⟩
    · rw [src.outcome_of_none ht] at h
      cases h
    · rw [src.outcome_of_some ht] at h
      cases h
  · rw [src.outcome_of_none hs] at h
    rcases ht : src.next false t with ⟨e' | _ | row', t'⟩
    · rw [src.outcome_of_error ht] at h
      cases h
    · exact ⟨.ok none, s', t', rfl, rfl, fun _ hrow => by cases hrow⟩
    · rw [src.outcome_of_some ht] at h
      cases h
  · rw [src.outcome_of_some hs] at h
    rcases ht : src.next false t with ⟨e' | _ | row', t'⟩
    · rw [src.outcome_of_error ht] at h
      cases h
    · rw [src.outcome_of_none ht] at h
      cases h
    · rw [src.outcome_of_some ht] at h
      obtain ⟨hrows, hended⟩ := Prod.mk.inj h
      obtain ⟨rfl, hrest⟩ := List.cons.inj hrows
      exact ⟨.ok (some row), s', t', rfl, rfl, fun _ _ => Prod.ext hrest hended⟩

/-- Two states have one outcome if a relation between them is kept behind every row. -/
theorem outcome_eq_of_simulation {R : src.State → src.State → Prop}
    (hnext : ∀ s t, R s t → (src.next false s).1 = (src.next false t).1 ∧
      ∀ row, (src.next false s).1 = .ok (some row) →
        R (src.next false s).2 (src.next false t).2) (h : R s t) :
    src.outcome s = src.outcome t := by
  have hanswered : ∀ {s s' t answer}, R s t → src.next false s = (answer, s') →
      ∃ t', src.next false t = (answer, t') ∧ ∀ row, answer = .ok (some row) → R s' t' := by
    intro s s' t answer h hs
    obtain ⟨hanswer, hstates⟩ := hnext s t h
    rw [hs] at hanswer hstates
    exact ⟨(src.next false t).2, Prod.ext hanswer.symm rfl, hstates⟩
  induction s using src.next_induction false generalizing t with
  | error s e s' hs =>
    obtain ⟨t', ht, -⟩ := hanswered h hs
    rw [src.outcome_of_error hs, src.outcome_of_error ht]
  | finished s s' hs =>
    obtain ⟨t', ht, -⟩ := hanswered h hs
    rw [src.outcome_of_none hs, src.outcome_of_none ht]
  | row s row s' hs ih =>
    obtain ⟨t', ht, hstates⟩ := hanswered h hs
    rw [src.outcome_of_some hs, src.outcome_of_some ht, ih (hstates row rfl)]

theorem exists_drain_error_iff :
    (∃ e, (src.drain false s).1 = .error e) ↔ src.rest? s = none := by
  cases hrest : src.rest? s with
  | none =>
    refine iff_of_true ?_ rfl
    cases hdrain : (src.drain false s).1 with
    | error e => exact ⟨e, rfl⟩
    | ok rows =>
      rw [src.drain_ok_iff.mp hdrain] at hrest
      cases hrest
  | some rows =>
    refine iff_of_false ?_ (Option.some_ne_none rows)
    rintro ⟨e, he⟩
    rw [src.drain_ok_iff.mpr hrest] at he
    cases he

theorem yieldsInTurn (h : src.rest? s = some rows) : src.YieldsInTurn s rows := by
  intro k hk
  induction k generalizing s rows with
  | zero => exact ⟨s, rfl, src.drain_ok_iff.mpr h⟩
  | succ k ih =>
    rcases hnext : src.next false s with ⟨e | _ | row, t⟩
    · rw [src.rest?_of_error hnext] at h
      cases h
    · rw [src.rest?_of_none hnext] at h
      cases h
      exact absurd hk (Nat.not_succ_le_zero k)
    · rw [src.rest?_of_some hnext] at h
      obtain ⟨rest, hrest, rfl⟩ := Option.map_eq_some_iff.mp h
      obtain ⟨u, htake, hdrain⟩ := ih hrest (Nat.le_of_succ_le_succ hk)
      refine ⟨u, ?_, hdrain⟩
      rw [take?, hnext]
      dsimp only
      rw [htake]
      rfl

end Outcome

/-! ## Sorting and grouping -/

section Kept

variable {child : RowSource} (order : RowOrder) (keys : List ℕ) (aggregates : List BoundAggregate)

/-- A sort that has not read its child yields the sorted rows, or only the child's error. -/
theorem outcome_sort (c : child.State) : (child.sort order).outcome ⟨c, none, []⟩ =
    match (child.outcome c).2 with
    | .error e => ([], .error e)
    | .ok _ => (order.sort (child.outcome c).1, .ok ()) := by
  rcases houtcome : child.outcome c with ⟨rows, e | ⟨⟩⟩
  · rcases hdrain : child.drain false c with ⟨answer, t⟩
    have herror := child.drain_eq (s := c)
    rw [hdrain, houtcome] at herror
    obtain rfl : answer = .error e := herror
    have hnext : (child.sort order).next false ⟨c, none, []⟩ = (.error e, ⟨t, none, []⟩) := by
      change SortState.next order false ⟨c, none, []⟩ = _
      rw [SortState.next]
      simp only [hdrain]
      rfl
    exact (child.sort order).outcome_of_error hnext
  · apply (child.sort order).rest?_eq_some_iff.mp
    rw [rest?_sort, child.rest?_eq_some_iff.mpr houtcome]
    rfl

/-- A grouping that has not read its child yields the rows of the groups, or only an error. -/
theorem outcome_aggregate (c : child.State) :
    (aggregate keys aggregates child).outcome ⟨c, none, 0⟩ =
      match foldRows (grouped keys aggregates) (child.outcome c).2 (child.outcome c).1 [] with
      | (_, .error e) => ([], .error e)
      | (gs, .ok _) => (groupRows keys aggregates gs, .ok ()) := by
  rw [← child.fold_eq_foldRows]
  rcases hfold : child.fold false (grouped keys aggregates) c [] with ⟨gs, e | u, d⟩
  · have hnext : (aggregate keys aggregates child).next false ⟨c, none, 0⟩ =
        (.error e, ⟨d, none, 0⟩) := by
      change GroupState.next keys aggregates false ⟨c, none, 0⟩ = _
      rw [GroupState.next]
      simp only [hfold]
      rfl
    exact (aggregate keys aggregates child).outcome_of_error hnext
  · have hnext : (aggregate keys aggregates child).next false ⟨c, none, 0⟩ =
        (aggregate keys aggregates child).next false
          ⟨d, some (groupRows keys aggregates gs), 0⟩ := by
      change GroupState.next keys aggregates false ⟨c, none, 0⟩ = GroupState.pop _ _
      rw [GroupState.next]
      simp only [hfold]
    apply (aggregate keys aggregates child).rest?_eq_some_iff.mp
    rw [(aggregate keys aggregates child).rest?_congr hnext,
      rest?_grouped keys aggregates child d _ (Nat.zero_le _)]
    rfl

end Kept

theorem yield?_eq_some_iff {src : RowSource} {rows : List Row} :
    src.yield? = some rows ↔
      ∃ s, src.init false src.start = (.ok (), s) ∧ src.rest? s = some rows := by
  rw [yield?]
  rcases src.init false src.start with ⟨e | ⟨⟩, s⟩
  · constructor
    · intro h
      cases h
    · rintro ⟨_, h, -⟩
      cases h
  · constructor
    · exact fun h => ⟨s, rfl, h⟩
    · rintro ⟨_, h, hrest⟩
      cases h
      exact hrest

/-- What a grouping yields of rows that can all be read: the rows of the groups, or the error of a
row that could not be taken in. -/
theorem rows_aggregate {child : RowSource} {rows : List Row} (h : (child.rows false).1 = .ok rows)
    (keys : List ℕ) (aggregates : List BoundAggregate) :
    ((aggregate keys aggregates child).rows false).1 =
      (rows.foldlM (fun gs row => grouped keys aggregates row gs) []).map
        (groupRows keys aggregates) := by
  obtain ⟨c, hinit, hrest⟩ := yield?_eq_some_iff.mp (rows_ok_iff.mp h)
  have hstart : (aggregate keys aggregates child).init false
      (aggregate keys aggregates child).start =
      ((child.init false child.start).1, ⟨(child.init false child.start).2, none, 0⟩) := rfl
  rw [hinit] at hstart
  rw [rows_of_init _ hstart, outcome_aggregate, child.rest?_eq_some_iff.mp hrest, ← foldRows_ok]
  rcases foldRows (grouped keys aggregates) (.ok ()) rows [] with ⟨gs, e | u⟩ <;> rfl

end BlockQuery.RowSource
