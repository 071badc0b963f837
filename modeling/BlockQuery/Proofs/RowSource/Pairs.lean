import BlockQuery.Proofs.RowSource.Join
import BlockQuery.Proofs.RowSource.Outcome

/-!
# The pairs of a join

What a join yields is said of two lists: for each left row in order the pairs with the right rows,
in order, for which the condition holds.  The join fails exactly if the condition fails on a pair,
and it may suspend behind any row.
-/

namespace BlockQuery.RowSource

/-- The joined rows of two lists.  A left outer join keeps a left row that is in no pair, with
nulls for the right side. -/
def pairs (type : JoinType) (holds : Row → Bool) (width : ℕ) (rights lefts : List Row) : List Row :=
  lefts.flatMap fun l =>
    let found := (rights.map (l ++ ·)).filter holds
    found ++ if type = .leftOuter ∧ found = [] then [l ++ Row.nulls width] else []

section Pairs

variable {type : JoinType} {condition : Option BoundExpr} {width : ℕ} {ls rs rows : List Row}

theorem pairs_cons (type : JoinType) (holds : Row → Bool) (width : ℕ) (rs : List Row) (l : Row)
    (ls : List Row) : pairs type holds width rs (l :: ls) =
      padded type width false l ((rs.map (l ++ ·)).filter holds) ++
        pairs type holds width rs ls := by
  rw [pairs, pairs, List.flatMap_cons, padded]
  dsimp only
  by_cases hpad : type = .leftOuter ∧ (rs.map (l ++ ·)).filter holds = []
  · rw [if_pos hpad, if_pos ⟨hpad.1, rfl, hpad.2⟩, hpad.2, List.nil_append]
  · rw [if_neg hpad, if_neg fun h => hpad ⟨h.1, h.2.2⟩, List.append_nil]

/-- A left row finds its partners if the condition can be tested on each of them. -/
theorem partners_eq_some_iff {l : Row} {found : List Row} :
    partners condition rs l = some found ↔
      (∀ r ∈ rs, ∃ b, meets condition (l ++ r) = .ok b) ∧
        found = (rs.map (l ++ ·)).filter (passes (meets condition)) := by
  have hall : (∀ row ∈ rs.map (l ++ ·), ∃ b, meets condition row = .ok b) ↔
      ∀ r ∈ rs, ∃ b, meets condition (l ++ r) = .ok b := by
    rw [List.forall_mem_map]
  rw [← hall]
  constructor
  · exact keep_eq_some
  · rintro ⟨htested, rfl⟩
    exact keep_of_forall htested

/-- Two lists are joined if the condition can be tested on each pair.  Induct on the left rows. -/
theorem joined_eq_some_iff :
    joined type condition width rs ls = some rows ↔
      (∀ l ∈ ls, ∀ r ∈ rs, ∃ b, meets condition (l ++ r) = .ok b) ∧
        rows = pairs type (passes (meets condition)) width rs ls := by
  induction ls generalizing rows with
  | nil =>
    constructor
    · intro h
      cases h
      exact ⟨fun l hl => absurd hl List.not_mem_nil, rfl⟩
    · rintro ⟨-, rfl⟩
      rfl
  | cons l ls ih =>
    rw [joined, Option.bind_eq_some_iff, pairs_cons, List.forall_mem_cons]
    constructor
    · rintro ⟨found, hfound, h⟩
      obtain ⟨rest, hrest, rfl⟩ := Option.map_eq_some_iff.mp h
      obtain ⟨htested, rfl⟩ := partners_eq_some_iff.mp hfound
      obtain ⟨hothers, rfl⟩ := ih.mp hrest
      exact ⟨⟨htested, hothers⟩, rfl⟩
    · rintro ⟨⟨htested, hothers⟩, rfl⟩
      refine ⟨_, partners_eq_some_iff.mpr ⟨htested, rfl⟩, ?_⟩
      rw [ih.mpr ⟨hothers, rfl⟩]
      rfl

theorem joined_eq_none_iff :
    joined type condition width rs ls = none ↔
      ∃ l ∈ ls, ∃ r ∈ rs, ∃ e, meets condition (l ++ r) = .error e := by
  constructor
  · intro hnone
    by_contra hno
    have htested : ∀ l ∈ ls, ∀ r ∈ rs, ∃ b, meets condition (l ++ r) = .ok b := by
      intro l hl r hr
      cases htest : meets condition (l ++ r) with
      | error e => exact absurd ⟨l, hl, r, hr, e, htest⟩ hno
      | ok b => exact ⟨b, rfl⟩
    rw [joined_eq_some_iff.mpr ⟨htested, rfl⟩] at hnone
    cases hnone
  · rintro ⟨l, hl, r, hr, e, he⟩
    rw [Option.eq_none_iff_forall_not_mem]
    intro rows hrows
    obtain ⟨b, hb⟩ := (joined_eq_some_iff.mp hrows).1 l hl r hr
    rw [he] at hb
    cases hb

end Pairs

section Sources

variable {left right : RowSource} {condition : Option BoundExpr} {width : ℕ}

/-- A join starts if both sides start and the right one can be read to its end. -/
theorem init_join_ok_iff {u s : JoinState left right} :
    JoinState.init false u = (.ok (), s) ↔ ∃ l q rows,
      left.init false u.left = (.ok (), l) ∧ right.init false u.right = (.ok (), q) ∧
        right.outcome q = (rows, .ok ()) ∧
          s = ⟨l, (right.gather false q []).2.2, rows, none, 0, false⟩ := by
  constructor
  · intro h
    rw [JoinState.init] at h
    rcases hl : left.init false u.left with ⟨e | ⟨⟩, l⟩
    all_goals rw [hl] at h
    · cases h
    · dsimp only at h
      rcases hq : right.init false u.right with ⟨e | ⟨⟩, q⟩
      all_goals rw [hq] at h
      · cases h
      · dsimp only at h
        rcases hgather : right.gather false q [] with ⟨found, e | ⟨⟩, r⟩
        all_goals rw [hgather] at h
        · cases h
        · cases h
          refine ⟨l, q, found.reverse, rfl, rfl, ?_, by rw [hgather]⟩
          rw [outcome, hgather]
  · rintro ⟨l, q, rows, hl, hq, houtcome, rfl⟩
    obtain ⟨hrows, hended⟩ := Prod.mk.inj houtcome
    rw [JoinState.init, hl]
    dsimp only
    rw [hq]
    dsimp only
    rcases hgather : right.gather false q [] with ⟨found, e | ⟨⟩, r⟩
    all_goals rw [hgather] at hrows hended
    · cases hended
    · dsimp only
      rw [hrows]

/-- A join that starts has read its right side, and is to join the rows of the left with them. -/
theorem exists_init_join {ls rs : List Row} (hleft : left.yield? = some ls)
    (hright : right.yield? = some rs) (type : JoinType) (condition : Option BoundExpr)
    (width : ℕ) : ∃ s, (join type condition width left right).init false
        (join type condition width left right).start = (.ok (), s) ∧
      (join type condition width left right).rest? s = joined type condition width rs ls := by
  obtain ⟨l, hl, hls⟩ := yield?_eq_some_iff.mp hleft
  obtain ⟨r, hr, hrs⟩ := yield?_eq_some_iff.mp hright
  refine ⟨_, init_join_ok_iff.mpr ⟨l, r, rs, hl, hr, right.rest?_eq_some_iff.mp hrs, rfl⟩, ?_⟩
  rw [rest?_join, hls, Option.bind_some]

/-- Joins that do not pad take the same steps. -/
theorem JoinState.next_inner (cancelled : Bool) (s : JoinState left right) :
    s.next .inner condition width cancelled = s.next .cross condition width cancelled := by
  fun_induction JoinState.next .inner condition width cancelled s with
  | case1 s row hrow e p hprobe | case2 s row hrow joined p hprobe =>
    obtain ⟨l, r, rows, current, p, matched⟩ := s
    cases hrow
    rw [next_current, hprobe]
  | case3 s row hrow p hprobe hpad => exact absurd hpad.1 JoinType.noConfusion
  | case4 s row hrow p hprobe hpad ih =>
    obtain ⟨l, r, rows, current, p, matched⟩ := s
    cases hrow
    rw [ih, next_current .cross, hprobe]
    exact (if_neg fun h => by cases h.1).symm
  | case5 s hnone e t hnext | case6 s hnone t hnext =>
    obtain ⟨l, r, rows, current, p, matched⟩ := s
    cases hnone
    rw [next_between, hnext]
  | case7 s hnone row t hnext ih =>
    obtain ⟨l, r, rows, current, p, matched⟩ := s
    cases hnone
    rw [ih, next_between .cross, hnext]

theorem join_inner (condition : Option BoundExpr) (width : ℕ) (left right : RowSource) :
    join .inner condition width left right = join .cross condition width left right := by
  have hnext : @JoinState.next left right .inner condition width =
      JoinState.next .cross condition width := by
    funext cancelled s
    exact JoinState.next_inner cancelled s
  simp only [join, hnext]

/-- A join of two sources that can be drained fails exactly if its condition fails on some pair,
and yields the pairs otherwise, whose right sides have the columns of a schema.  Taken row by row
they are the same, none lost and none repeated.  Inner joins and cross joins do not differ. -/
theorem drains_to_pairs {ls rs : List Row} (hleft : (left.rows false).1 = .ok ls)
    (hright : (right.rows false).1 = .ok rs) (type : JoinType) (condition : Option BoundExpr)
    (schema : Schema) :
    (∃ s, (join type condition schema.length left right).init false
        (join type condition schema.length left right).start = (.ok (), s) ∧
      ((∃ e, ((join type condition schema.length left right).drain false s).1 = .error e) ↔
        ∃ l ∈ ls, ∃ r ∈ rs, ∃ e, meets condition (l ++ r) = .error e) ∧
      ((∀ l ∈ ls, ∀ r ∈ rs, ∃ b, meets condition (l ++ r) = .ok b) →
        ((join type condition schema.length left right).drain false s).1 =
            .ok (pairs type (passes (meets condition)) schema.length rs ls) ∧
          (join type condition schema.length left right).YieldsInTurn s
            (pairs type (passes (meets condition)) schema.length rs ls))) ∧
      join .inner condition schema.length left right =
        join .cross condition schema.length left right := by
  refine ⟨?_, join_inner condition schema.length left right⟩
  obtain ⟨s, hinit, hrest⟩ := exists_init_join (rows_ok_iff.mp hleft) (rows_ok_iff.mp hright) type
    condition schema.length
  refine ⟨s, hinit, ?_, fun htested => ?_⟩
  · rw [exists_drain_error_iff, hrest, joined_eq_none_iff]
  · rw [joined_eq_some_iff.mpr ⟨htested, rfl⟩] at hrest
    exact ⟨(drain_ok_iff _).mpr hrest, yieldsInTurn _ hrest⟩

/-- A left outer join in which one left row has two partners, and two have none, one of them since
a null is not known to equal anything. -/
theorem drains_to_pairs_outer :
    ((values [[.int4 1], [.int4 2], [.null]]).rows false).1 =
        .ok [[.int4 1], [.int4 2], [.null]] ∧
      ((values [[.int4 2], [.int8 2]]).rows false).1 = .ok [[.int4 2], [.int8 2]] ∧
      ∃ s, (join .leftOuter (some (.binary (.comparison .eq) (.column 0 "a") (.column 1 "b"))) 1
          (values [[.int4 1], [.int4 2], [.null]]) (values [[.int4 2], [.int8 2]])).init false
            ⟨[[.int4 1], [.int4 2], [.null]], [[.int4 2], [.int8 2]], [], none, 0, false⟩ =
              (.ok (), s) ∧
        ((join .leftOuter (some (.binary (.comparison .eq) (.column 0 "a") (.column 1 "b"))) 1
          (values [[.int4 1], [.int4 2], [.null]]) (values [[.int4 2], [.int8 2]])).drain false
            s).1 =
          .ok [[.int4 1, .null], [.int4 2, .int4 2], [.int4 2, .int8 2], [.null, .null]] := by
  have hleft := rows_ok_iff.mpr (yield?_values [[.int4 1], [.int4 2], [.null]])
  have hright := rows_ok_iff.mpr (yield?_values [[.int4 2], [.int8 2]])
  obtain ⟨⟨s, hinit, -, hdrain⟩, -⟩ := drains_to_pairs hleft hright .leftOuter
    (some (.binary (.comparison .eq) (.column 0 "a") (.column 1 "b"))) [⟨"b", .int4⟩]
  exact ⟨hleft, hright, s, hinit, (hdrain (by decide)).1⟩

end Sources

end BlockQuery.RowSource
