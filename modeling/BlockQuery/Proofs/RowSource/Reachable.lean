import Mathlib.Tactic
import BlockQuery.RowSource.Aggregate
import BlockQuery.RowSource.Filter
import BlockQuery.RowSource.Join
import BlockQuery.RowSource.Sort
import BlockQuery.RowSource

/-!
# Rows in any state

The rows that a source may yield after any calls, also after failed ones.  A property of the
rows of a child becomes one of the rows of the source that is made of it.
-/

namespace BlockQuery.RowSource

/-- The states that calls bring a source to, in any order and whatever comes of them. -/
inductive Reachable (src : RowSource) : src.State → Prop
  | start : Reachable src src.start
  | init (cancelled : Bool) {s : src.State} :
    Reachable src s → Reachable src (src.init cancelled s).2
  | next (cancelled : Bool) {s : src.State} :
    Reachable src s → Reachable src (src.next cancelled s).2
  | reset {s : src.State} : Reachable src s → Reachable src (src.reset s)
  | close {s : src.State} : Reachable src s → Reachable src (src.close s)

/-- Whether all rows that a source yields in any of its states have a property. -/
def YieldsOnly (src : RowSource) (P : Row → Prop) : Prop :=
  ∀ s, src.Reachable s → ∀ cancelled row t, src.next cancelled s = (.ok (some row), t) → P row

/-- Whether an answer leaves a good state, and its row is good if it has one. -/
structure Answers {σ : Type} (I : σ → Prop) (P : Row → Prop)
    (answer : Except ExecError (Option Row) × σ) : Prop where
  state : I answer.2
  row : ∀ row, answer.1 = .ok (some row) → P row

theorem Answers.of_error {σ : Type} {I : σ → Prop} {P : Row → Prop} {s : σ} (hs : I s)
    (e : ExecError) : Answers I P (.error e, s) := ⟨hs, fun _ h => (by cases h)⟩

theorem Answers.of_none {σ : Type} {I : σ → Prop} {P : Row → Prop} {s : σ} (hs : I s) :
    Answers I P (.ok none, s) := ⟨hs, fun _ h => (by cases h)⟩

theorem Answers.of_row {σ : Type} {I : σ → Prop} {P : Row → Prop} {s : σ} {row : Row} (hs : I s)
    (hrow : P row) : Answers I P (.ok (some row), s) :=
  ⟨hs, fun _ h => by
    cases h
    exact hrow⟩

/-- A property of states that every call keeps, and under which every row is good. -/
structure Invariant (src : RowSource) (I : src.State → Prop) (P : Row → Prop) : Prop where
  start : I src.start
  init : ∀ cancelled s, I s → I (src.init cancelled s).2
  next : ∀ cancelled s, I s → Answers I P (src.next cancelled s)
  reset : ∀ s, I s → I (src.reset s)
  close : ∀ s, I s → I (src.close s)

theorem Invariant.of_reachable {src : RowSource} {I : src.State → Prop} {P : Row → Prop}
    (h : src.Invariant I P) {s : src.State} (hs : src.Reachable s) : I s := by
  induction hs with
  | start => exact h.start
  | init cancelled _ ih => exact h.init cancelled _ ih
  | next cancelled _ ih => exact (h.next cancelled _ ih).state
  | reset _ ih => exact h.reset _ ih
  | close _ ih => exact h.close _ ih

theorem Invariant.yieldsOnly {src : RowSource} {I : src.State → Prop} {P : Row → Prop}
    (h : src.Invariant I P) : src.YieldsOnly P := by
  intro s hs cancelled row t hnext
  apply (h.next cancelled s (h.of_reachable hs)).row
  rw [hnext]

variable {child left right : RowSource} {P Q R : Row → Prop}

theorem YieldsOnly.answers (h : child.YieldsOnly P) {s : child.State} (hs : child.Reachable s)
    (cancelled : Bool) : Answers child.Reachable P (child.next cancelled s) where
  state := hs.next cancelled
  row row hrow := h s hs cancelled row _ (Prod.ext hrow rfl)

/-- An execution that is cancelled gets no row. -/
theorem answers_of_cancelled {σ : Type} {I : σ → Prop} {s : σ} (hs : I s) (cancelled : Bool)
    {answer : Except ExecError (Option Row) × σ} (h : Answers I P answer) :
    Answers I P (if cancelled then (.error .cancelled, s) else answer) := by
  cases cancelled with
  | true => exact Answers.of_error hs _
  | false => exact h

theorem YieldsOnly.values {rows : List Row} (h : ∀ row ∈ rows, P row) :
    (RowSource.values rows).YieldsOnly P := by
  have hinvariant : (RowSource.values rows).Invariant (fun s : List Row => ∀ row ∈ s, P row) P := by
    refine ⟨h, fun _ _ _ => h, fun _ s hs => ?_, fun _ _ => h, fun _ hs => hs⟩
    cases s with
    | nil => exact Answers.of_none hs
    | cons row rest =>
      obtain ⟨hrow, hrest⟩ := List.forall_mem_cons.mp hs
      exact Answers.of_row hrest hrow
  exact hinvariant.yieldsOnly

/-! ## Selection and projection -/

theorem YieldsOnly.answers_nextKept (h : child.YieldsOnly P) (predicate : BoundExpr)
    (cancelled : Bool) {s : child.State} (hs : child.Reachable s) :
    Answers child.Reachable P (child.nextKept predicate cancelled s) := by
  have hnext := fun s hs => h.answers (s := s) hs cancelled
  fun_induction nextKept child predicate cancelled s with
  | case1 s e t heq | case2 s t heq | case3 s row t heq e =>
    have hanswer := hnext s hs
    rw [heq] at hanswer
    exact ⟨hanswer.state, fun _ hrow => (by cases hrow)⟩
  | case4 s row t heq =>
    have hanswer := hnext s hs
    rw [heq] at hanswer
    exact hanswer
  | case5 s row t heq _ ih =>
    have hanswer := hnext s hs
    rw [heq] at hanswer
    exact ih hanswer.state

theorem YieldsOnly.filter (h : child.YieldsOnly P) (predicate : BoundExpr) :
    (child.filter predicate).YieldsOnly P := by
  have hinvariant : (child.filter predicate).Invariant child.Reachable P :=
    { start := .start
      init := fun cancelled _ hs => hs.init cancelled
      next := fun cancelled _ hs =>
        answers_of_cancelled hs cancelled (h.answers_nextKept predicate cancelled hs)
      reset := fun _ hs => hs.reset
      close := fun _ hs => hs.close }
  exact hinvariant.yieldsOnly

theorem YieldsOnly.answers_nextProjected (h : child.YieldsOnly P) {targets : List BoundExpr}
    (hvalues : ∀ row values, P row → targets.mapM (BoundExpr.eval row) = .ok values → Q values)
    (cancelled : Bool) {s : child.State} (hs : child.Reachable s) :
    Answers child.Reachable Q (child.nextProjected targets cancelled s) := by
  have hanswer := h.answers hs cancelled
  rw [nextProjected]
  rcases heq : child.next cancelled s with ⟨e | _ | row, t⟩
  all_goals rw [heq] at hanswer
  · exact Answers.of_error hanswer.state _
  · exact Answers.of_none hanswer.state
  · dsimp only
    split
    next => exact Answers.of_error hanswer.state _
    next values hmap =>
      exact Answers.of_row hanswer.state (hvalues row values (hanswer.row row rfl) hmap)

theorem YieldsOnly.project (h : child.YieldsOnly P) {targets : List BoundExpr}
    (hvalues : ∀ row values, P row → targets.mapM (BoundExpr.eval row) = .ok values → Q values) :
    (child.project targets).YieldsOnly Q := by
  have hinvariant : (child.project targets).Invariant child.Reachable Q :=
    { start := .start
      init := fun cancelled _ hs => hs.init cancelled
      next := fun cancelled _ hs =>
        answers_of_cancelled hs cancelled (h.answers_nextProjected hvalues cancelled hs)
      reset := fun _ hs => hs.reset
      close := fun _ hs => hs.close }
  exact hinvariant.yieldsOnly

/-! ## Sources that gather rows -/

/-- What taking in good rows keeps holds of the value that they were all taken into. -/
theorem YieldsOnly.fold {α : Type} (h : child.YieldsOnly P) {f : Row → α → Except ExecError α}
    {J : α → Prop} (hf : ∀ row a b, P row → J a → f row a = .ok b → J b) (cancelled : Bool)
    {s : child.State} (hs : child.Reachable s) {a : α} (ha : J a) :
    J (child.fold cancelled f s a).1 ∧ child.Reachable (child.fold cancelled f s a).2.2 := by
  have hnext := fun s hs => h.answers (s := s) hs cancelled
  fun_induction RowSource.fold child cancelled f s a with
  | case1 s a e t heq | case2 s a t heq | case3 s a row t heq =>
    have hanswer := hnext s hs
    rw [heq] at hanswer
    exact ⟨ha, hanswer.state⟩
  | case4 s a row t heq b hb ih =>
    have hanswer := hnext s hs
    rw [heq] at hanswer
    exact ih hanswer.state (hf row a b (hanswer.row row rfl) ha hb)

theorem YieldsOnly.gather (h : child.YieldsOnly P) (cancelled : Bool) {s : child.State}
    (hs : child.Reachable s) {rows : List Row} (hrows : ∀ row ∈ rows, P row) :
    (∀ row ∈ (child.gather cancelled s rows).1, P row) ∧
      child.Reachable (child.gather cancelled s rows).2.2 := by
  refine h.fold (J := fun rows => ∀ row ∈ rows, P row) ?_ cancelled hs hrows
  intro row rows more hrow hall heq
  cases heq
  exact List.forall_mem_cons.mpr ⟨hrow, hall⟩

theorem YieldsOnly.drain (h : child.YieldsOnly P) (cancelled : Bool) {s : child.State}
    (hs : child.Reachable s) :
    (∀ rows, (child.drain cancelled s).1 = .ok rows → ∀ row ∈ rows, P row) ∧
      child.Reachable (child.drain cancelled s).2 := by
  have hnil : ∀ row ∈ ([] : List Row), P row := fun _ hrow => absurd hrow List.not_mem_nil
  have hgather := h.gather cancelled hs hnil
  rw [RowSource.drain]
  rcases heq : child.gather cancelled s [] with ⟨rows, e | u, t⟩
  all_goals rw [heq] at hgather
  · exact ⟨fun _ hrows => (by cases hrows), hgather.2⟩
  · refine ⟨fun _ hrows => ?_, hgather.2⟩
    cases hrows
    exact fun row hrow => hgather.1 row (List.mem_reverse.mp hrow)

/-! ### Sorting -/

/-- The child of a sort is reachable, and the rows at hand are good. -/
structure SortState.Good (P : Row → Prop) (s : SortState child) : Prop where
  child : child.Reachable s.child
  sorted : ∀ rows, s.sorted = some rows → ∀ row ∈ rows, P row
  rest : ∀ row ∈ s.rest, P row

theorem SortState.Good.answers_pop {s : SortState child} (hs : s.Good P) :
    Answers (SortState.Good P) P s.pop := by
  obtain ⟨c, sorted, rest⟩ := s
  cases rest with
  | nil => exact Answers.of_none hs
  | cons row rest =>
    obtain ⟨hrow, hrest⟩ := List.forall_mem_cons.mp hs.rest
    exact Answers.of_row ⟨hs.child, hs.sorted, hrest⟩ hrow

theorem SortState.Good.answers_next (h : child.YieldsOnly P) (order : RowOrder)
    (cancelled : Bool) {s : SortState child} (hs : s.Good P) :
    Answers (SortState.Good P) P (s.next order cancelled) := by
  have hdrain := h.drain cancelled hs.child
  rw [SortState.next]
  split
  next => exact hs.answers_pop
  next hsorted =>
    rcases heq : child.drain cancelled s.child with ⟨e | rows, t⟩
    all_goals rw [heq] at hdrain
    · exact Answers.of_error ⟨hdrain.2, hs.sorted, hs.rest⟩ _
    · have hall : ∀ row ∈ order.sort rows, P row :=
        fun row hrow => hdrain.1 rows rfl row (List.mem_mergeSort.mp hrow)
      apply SortState.Good.answers_pop
      refine ⟨hdrain.2, fun _ hrows => ?_, hall⟩
      cases hrows
      exact hall

theorem SortState.Good.fresh {c : child.State} (hc : child.Reachable c) :
    (⟨c, none, []⟩ : SortState child).Good P :=
  ⟨hc, fun _ hrows => (by cases hrows), fun _ hrow => absurd hrow List.not_mem_nil⟩

theorem SortState.Good.rewound {s : SortState child} (hs : s.Good P) :
    ({ s with rest := s.sorted.getD [] } : SortState child).Good P := by
  refine ⟨hs.child, hs.sorted, ?_⟩
  cases hsorted : s.sorted with
  | none => exact fun _ hrow => absurd hrow List.not_mem_nil
  | some rows => exact hs.sorted rows hsorted

theorem YieldsOnly.sort (h : child.YieldsOnly P) (order : RowOrder) :
    (child.sort order).YieldsOnly P := by
  have hinvariant : (child.sort order).Invariant (SortState.Good P) P :=
    { start := SortState.Good.fresh .start
      init := fun cancelled _ hs => SortState.Good.fresh (hs.child.init cancelled)
      next := fun cancelled _ hs =>
        answers_of_cancelled hs cancelled (hs.answers_next h order cancelled)
      reset := fun _ hs => hs.rewound
      close := fun _ hs => SortState.Good.fresh hs.child.close }
  exact hinvariant.yieldsOnly

/-! ### Joining -/

theorem probe_eq_some {condition : Option BoundExpr} {l row : Row} {position p : ℕ}
    {rights : List Row} (h : probe condition l position rights = (.ok (some row), p)) :
    ∃ r ∈ rights, row = l ++ r := by
  induction rights generalizing position with
  | nil => cases h
  | cons r rights ih =>
    rw [probe] at h
    split at h
    next => cases h
    next =>
      cases h
      exact ⟨r, List.mem_cons_self, rfl⟩
    next =>
      obtain ⟨r', hr', heq⟩ := ih h
      exact ⟨r', List.mem_cons_of_mem r hr', heq⟩

/-- Both sides of a join are reachable, and the rows at hand are good. -/
structure JoinState.Good (P Q : Row → Prop) (s : JoinState left right) : Prop where
  left : left.Reachable s.left
  right : right.Reachable s.right
  rows : ∀ row ∈ s.rows, Q row
  current : ∀ row, s.current = some row → P row

theorem JoinState.Good.answers_next (hleft : left.YieldsOnly P) {type : JoinType}
    {condition : Option BoundExpr} {width : ℕ}
    (hjoined : ∀ l r, P l → Q r → R (l ++ r)) (hpadded : ∀ l, P l → R (l ++ Row.nulls width))
    (cancelled : Bool) {s : JoinState left right} (hs : s.Good P Q) :
    Answers (JoinState.Good P Q) R (s.next type condition width cancelled) := by
  have hnext := fun s hs => hleft.answers (s := s) hs cancelled
  fun_induction JoinState.next type condition width cancelled s with
  | case1 => exact Answers.of_error ⟨hs.left, hs.right, hs.rows, hs.current⟩ _
  | case2 s l hl joined p hprobe =>
    obtain ⟨r, hr, rfl⟩ := probe_eq_some hprobe
    exact Answers.of_row ⟨hs.left, hs.right, hs.rows, hs.current⟩
      (hjoined l r (hs.current l hl) (hs.rows r (List.mem_of_mem_drop hr)))
  | case3 s l hl =>
    exact Answers.of_row ⟨hs.left, hs.right, hs.rows, fun _ h => (by cases h)⟩
      (hpadded l (hs.current l hl))
  | case4 s l hl p hprobe hpad ih => exact ih ⟨hs.left, hs.right, hs.rows, fun _ h => (by cases h)⟩
  | case5 s hl e t heq =>
    have hanswer := hnext s.left hs.left
    rw [heq] at hanswer
    exact Answers.of_error ⟨hanswer.state, hs.right, hs.rows, hs.current⟩ _
  | case6 s hl t heq =>
    have hanswer := hnext s.left hs.left
    rw [heq] at hanswer
    exact Answers.of_none ⟨hanswer.state, hs.right, hs.rows, hs.current⟩
  | case7 s hl row t heq ih =>
    have hanswer := hnext s.left hs.left
    rw [heq] at hanswer
    refine ih ⟨hanswer.state, hs.right, hs.rows, fun l hcurrent => ?_⟩
    cases hcurrent
    exact hanswer.row row rfl

theorem JoinState.Good.init (hright : right.YieldsOnly Q) (cancelled : Bool)
    {s : JoinState left right} (hs : s.Good P Q) : (JoinState.init cancelled s).2.Good P Q := by
  have hl := hs.left.init cancelled
  have hr := hs.right.init cancelled
  rw [JoinState.init]
  rcases heql : left.init cancelled s.left with ⟨e | u, l⟩
  all_goals rw [heql] at hl
  · exact ⟨hl, hs.right, hs.rows, hs.current⟩
  · rcases heqr : right.init cancelled s.right with ⟨e | u, r⟩
    all_goals rw [heqr] at hr
    · exact ⟨hl, hr, hs.rows, hs.current⟩
    · have hnil : ∀ row ∈ ([] : List Row), Q row := fun _ hrow => absurd hrow List.not_mem_nil
      have hgather := hright.gather cancelled hr hnil
      dsimp only
      rcases heq : right.gather cancelled r [] with ⟨rows, e | u, r'⟩
      all_goals rw [heq] at hgather
      all_goals
        have hrows : ∀ row ∈ rows.reverse, Q row :=
          fun row hrow => hgather.1 row (List.mem_reverse.mp hrow)
      · exact ⟨hl, hgather.2, hrows, hs.current⟩
      · exact ⟨hl, hgather.2, hrows, fun _ h => (by cases h)⟩

theorem YieldsOnly.join (hleft : left.YieldsOnly P) (hright : right.YieldsOnly Q)
    {type : JoinType} {condition : Option BoundExpr} {width : ℕ}
    (hjoined : ∀ l r, P l → Q r → R (l ++ r)) (hpadded : ∀ l, P l → R (l ++ Row.nulls width)) :
    (RowSource.join type condition width left right).YieldsOnly R := by
  have hempty : ∀ row ∈ ([] : List Row), Q row := fun _ hrow => absurd hrow List.not_mem_nil
  have hnone : ∀ row, (none : Option Row) = some row → P row := fun _ h => (by cases h)
  have hinvariant : (RowSource.join type condition width left right).Invariant
      (JoinState.Good P Q) R :=
    { start := ⟨.start, .start, hempty, hnone⟩
      init := fun cancelled _ hs => hs.init hright cancelled
      next := fun cancelled _ hs =>
        answers_of_cancelled hs cancelled (hs.answers_next hleft hjoined hpadded cancelled)
      reset := fun _ hs => ⟨hs.left.reset, hs.right, hs.rows, hnone⟩
      close := fun _ hs => ⟨hs.left.close, hs.right.close, hempty, hs.current⟩ }
  exact hinvariant.yieldsOnly

/-! ### Grouping -/

/-- The child of a grouping is reachable, and the rows made of it are good. -/
structure GroupState.Good (P : Row → Prop) (s : GroupState child) : Prop where
  child : child.Reachable s.child
  output : ∀ rows, s.output = some rows → ∀ row ∈ rows, P row

theorem GroupState.Good.answers_pop {s : GroupState child} (hs : s.Good P) {rows : List Row}
    (hrows : ∀ row ∈ rows, P row) : Answers (GroupState.Good P) P (s.pop rows) := by
  rw [GroupState.pop]
  split
  next row hrow =>
    exact Answers.of_row ⟨hs.child, hs.output⟩ (hrows row (List.mem_of_getElem? hrow))
  next => exact Answers.of_none hs

section Groups

variable {keys : List ℕ} {aggregates : List BoundAggregate} {J : List Group → Prop}
  (h : child.YieldsOnly P) (hnil : J [])
  (hgrouped : ∀ row gs more, P row → J gs → grouped keys aggregates row gs = .ok more → J more)
  (hrows : ∀ gs, J gs → ∀ row ∈ groupRows keys aggregates gs, Q row)
include h hnil hgrouped hrows

theorem GroupState.Good.answers_next (cancelled : Bool) {s : GroupState child} (hs : s.Good Q) :
    Answers (GroupState.Good Q) Q (s.next keys aggregates cancelled) := by
  have hfold := h.fold hgrouped cancelled hs.child hnil
  rw [GroupState.next]
  split
  next rows houtput => exact hs.answers_pop (hs.output rows houtput)
  next =>
    rcases heq : child.fold cancelled (grouped keys aggregates) s.child [] with ⟨gs, e | u, t⟩
    all_goals rw [heq] at hfold
    · exact Answers.of_error ⟨hfold.2, hs.output⟩ _
    · have hall := hrows gs hfold.1
      refine GroupState.Good.answers_pop ⟨hfold.2, fun _ houtput => ?_⟩ hall
      cases houtput
      exact hall

/-- The rows of groups are good if taking in a good row keeps what makes them so. -/
theorem YieldsOnly.aggregate : (RowSource.aggregate keys aggregates child).YieldsOnly Q := by
  have hfresh : ∀ (c : child.State) position, child.Reachable c →
      (⟨c, none, position⟩ : GroupState child).Good Q :=
    fun _ _ hc => ⟨hc, fun _ houtput => (by cases houtput)⟩
  have hinvariant : (RowSource.aggregate keys aggregates child).Invariant (GroupState.Good Q) Q :=
    { start := hfresh _ _ .start
      init := fun cancelled _ hs => hfresh _ _ (hs.child.init cancelled)
      next := fun cancelled _ hs =>
        answers_of_cancelled hs cancelled (hs.answers_next h hnil hgrouped hrows cancelled)
      reset := fun _ hs => ⟨hs.child, hs.output⟩
      close := fun _ hs => hfresh _ _ hs.child.close }
  exact hinvariant.yieldsOnly

end Groups

end BlockQuery.RowSource
