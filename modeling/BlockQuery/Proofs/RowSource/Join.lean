import BlockQuery.Proofs.RowSource.Yield

/-!
# What joins yield

A join yields, for every left row in turn, that row with each right row that
meets the condition; a left outer join pads a row without partners.
-/

namespace BlockQuery.RowSource

/-- The rows in which a left row takes part, if no test of the condition fails. -/
def partners (condition : Option BoundExpr) (rights : List Row) (row : Row) : Option (List Row) :=
  keep (meets condition) (rights.map (row ++ ·))

/-- What a left row adds to the partners that are found for it. -/
def padded (type : JoinType) (width : ℕ) (matched : Bool) (row : Row) (found : List Row) :
    List Row :=
  if type = .leftOuter ∧ !matched ∧ found = [] then [row ++ Row.nulls width] else found

/-- The joined rows of two lists, unless a test of the condition fails. -/
def joined (type : JoinType) (condition : Option BoundExpr) (width : ℕ) (rights : List Row) :
    List Row → Option (List Row)
  | [] => some []
  | row :: rows =>
    (partners condition rights row).bind fun found =>
      (joined type condition width rights rows).map (padded type width false row found ++ ·)

/-- The first partner is the one that a probe finds, unless a test fails before. -/
theorem partners_eq_probe (condition : Option BoundExpr) (row : Row) (p : ℕ) (rights : List Row) :
    partners condition rights row = match probe condition row p rights with
      | (.error _, _) => none
      | (.ok none, _) => some []
      | (.ok (some found), q) =>
        (partners condition (rights.drop (q - p)) row).map (found :: ·) := by
  induction rights generalizing p with
  | nil => rfl
  | cons right rest ih =>
    rw [probe, partners, List.map_cons, keep]
    rcases meets condition (row ++ right) with e | _ | _
    · rfl
    · dsimp only
      rw [← partners, ih (p + 1)]
      rcases hprobe : probe condition row (p + 1) rest with ⟨e | _ | found, q⟩
      · rfl
      · rfl
      · have hlt := probe_position hprobe
        have hdrop : q - p = (q - (p + 1)) + 1 := by omega
        dsimp only
        rw [hdrop, List.drop_succ_cons]
    · have hone : p + 1 - p = 1 := by omega
      dsimp only
      rw [hone]
      rfl

section Rest

variable {left right : RowSource} (type : JoinType) (condition : Option BoundExpr) (width : ℕ)

/-- With a current row a join goes on to probe the right rows. -/
theorem JoinState.next_current (cancelled : Bool) (l : left.State)
    (r : right.State) (rows : List Row) (row : Row) (p : ℕ) (matched : Bool) :
    JoinState.next type condition width cancelled ⟨l, r, rows, some row, p, matched⟩ =
      match probe condition row p (rows.drop p) with
      | (.error e, q) => (.error (.eval e), ⟨l, r, rows, some row, q, matched⟩)
      | (.ok (some joined), q) => (.ok (some joined), ⟨l, r, rows, some row, q, true⟩)
      | (.ok none, q) =>
        if type = .leftOuter ∧ !matched then
          (.ok (some (row ++ Row.nulls width)), ⟨l, r, rows, none, q, matched⟩)
        else JoinState.next type condition width cancelled ⟨l, r, rows, none, q, matched⟩ :=
  (JoinState.next.eq_def ..).trans rfl

/-- Without one it asks its left side for a row. -/
theorem JoinState.next_between (cancelled : Bool) (l : left.State)
    (r : right.State) (rows : List Row) (p : ℕ) (matched : Bool) :
    JoinState.next type condition width cancelled ⟨l, r, rows, none, p, matched⟩ =
      match left.next cancelled l with
      | (.error e, t) => (.error e, ⟨t, r, rows, none, p, matched⟩)
      | (.ok none, t) => (.ok none, ⟨t, r, rows, none, 0, false⟩)
      | (.ok (some row), t) =>
        JoinState.next type condition width cancelled ⟨t, r, rows, some row, 0, false⟩ := by
  rw [JoinState.next]
  dsimp only
  rcases left.next cancelled l with ⟨e | _ | row, t⟩ <;> rfl

/-- Without a current row the next one is asked of the left side. -/
theorem next_join_between (l : left.State) (r : right.State) (rows : List Row) (p : ℕ)
    (matched : Bool) :
    (join type condition width left right).next false ⟨l, r, rows, none, p, matched⟩ =
      match left.next false l with
      | (.error e, t) => (.error e, ⟨t, r, rows, none, p, matched⟩)
      | (.ok none, t) => (.ok none, ⟨t, r, rows, none, 0, false⟩)
      | (.ok (some row), t) =>
        (join type condition width left right).next false ⟨t, r, rows, some row, 0, false⟩ :=
  JoinState.next_between type condition width false l r rows p matched

/-- Between two left rows only the left side and the right rows matter. -/
theorem rest?_join_between (l : left.State) (r : right.State) (rows : List Row) (p : ℕ)
    (matched : Bool) :
    (join type condition width left right).rest? ⟨l, r, rows, none, p, matched⟩ =
      (join type condition width left right).rest? ⟨l, r, rows, none, 0, false⟩ := by
  have hany := next_join_between type condition width l r rows p matched
  have hfresh := next_join_between type condition width l r rows 0 false
  rcases hnext : left.next false l with ⟨e | _ | row, t⟩
  · rw [hnext] at hany hfresh
    rw [(join type condition width left right).rest?_of_error hany,
      (join type condition width left right).rest?_of_error hfresh]
  · rw [hnext] at hany hfresh
    rw [(join type condition width left right).rest?_of_none hany,
      (join type condition width left right).rest?_of_none hfresh]
  · rw [hnext] at hany hfresh
    exact (join type condition width left right).rest?_congr (hany.trans hfresh.symm)

/-- Induct on the right rows that the left row has not been tried on. -/
theorem rest?_join_current (l : left.State) (r : right.State) (rows : List Row) (row : Row)
    (p : ℕ) (matched : Bool) :
    (join type condition width left right).rest? ⟨l, r, rows, some row, p, matched⟩ =
      (partners condition (rows.drop p) row).bind fun found =>
        ((join type condition width left right).rest? ⟨l, r, rows, none, 0, false⟩).map
          (padded type width matched row found ++ ·) := by
  induction hn : rows.length - p using Nat.strong_induction_on generalizing p matched with
  | _ n ih =>
    have hjoin : (join type condition width left right).next false
        ⟨l, r, rows, some row, p, matched⟩ =
          JoinState.next type condition width false ⟨l, r, rows, some row, p, matched⟩ := rfl
    rw [JoinState.next] at hjoin
    dsimp only at hjoin
    rcases hprobe : probe condition row p (rows.drop p) with ⟨e | _ | found, q⟩
    · rw [hprobe] at hjoin
      rw [partners_eq_probe condition row p, hprobe]
      exact (join type condition width left right).rest?_of_error hjoin
    · rw [hprobe] at hjoin
      rw [partners_eq_probe condition row p, hprobe]
      by_cases hpad : type = .leftOuter ∧ (!matched) = true
      · simp only [if_pos hpad] at hjoin
        have hpadded : padded type width matched row [] = [row ++ Row.nulls width] :=
          if_pos ⟨hpad.1, hpad.2, rfl⟩
        rw [(join type condition width left right).rest?_of_some hjoin, rest?_join_between]
        simp [hpadded]
      · simp only [if_neg hpad] at hjoin
        have hpadded : padded type width matched row [] = [] :=
          if_neg fun h => hpad ⟨h.1, h.2.1⟩
        have hskip : (join type condition width left right).rest?
            ⟨l, r, rows, some row, p, matched⟩ =
              (join type condition width left right).rest? ⟨l, r, rows, none, q, matched⟩ :=
          (join type condition width left right).rest?_congr hjoin
        rw [hskip, rest?_join_between]
        simp [hpadded]
    · rw [hprobe] at hjoin
      have hq := probe_position hprobe
      rw [List.length_drop] at hq
      have hdrop : (rows.drop p).drop (q - p) = rows.drop q := by
        rw [List.drop_drop]
        congr 1
        omega
      rw [(join type condition width left right).rest?_of_some hjoin,
        ih (rows.length - q) (by omega) q true rfl, partners_eq_probe condition row p (rows.drop p),
        hprobe]
      dsimp only
      rw [hdrop]
      cases partners condition (rows.drop q) row with
      | none => rfl
      | some more => simp [padded, Function.comp_def]

theorem rest?_join (l : left.State) (r : right.State) (rows : List Row) :
    (join type condition width left right).rest? ⟨l, r, rows, none, 0, false⟩ =
      (left.rest? l).bind (joined type condition width rows) := by
  have hjoin := fun l : left.State => next_join_between type condition width l r rows 0 false
  induction l using left.next_induction false with
  | error l e t hnext =>
    specialize hjoin l
    rw [hnext] at hjoin
    rw [left.rest?_of_error hnext]
    exact (join type condition width left right).rest?_of_error hjoin
  | finished l t hnext =>
    specialize hjoin l
    rw [hnext] at hjoin
    rw [left.rest?_of_none hnext]
    exact (join type condition width left right).rest?_of_none hjoin
  | row l row t hnext ih =>
    specialize hjoin l
    rw [hnext] at hjoin
    rw [(join type condition width left right).rest?_congr hjoin, rest?_join_current, ih,
      left.rest?_of_some hnext]
    cases left.rest? t with
    | none => exact Option.bind_fun_none _
    | some more => rfl

theorem yield?_join :
    (join type condition width left right).yield? =
      left.yield?.bind fun ls => right.yield?.bind fun rs =>
        joined type condition width rs ls := by
  unfold yield?
  have hinit : (join type condition width left right).init false
      (join type condition width left right).start =
        JoinState.init false ⟨left.start, right.start, [], none, 0, false⟩ := rfl
  rw [hinit, JoinState.init]
  dsimp only
  rcases left.init false left.start with ⟨_ | u, l⟩
  · rfl
  rcases right.init false right.start with ⟨_ | v, r⟩
  · exact (Option.bind_fun_none (left.rest? l)).symm
  have hgather := fun rs => @gather_ok_iff right r rs
  dsimp only
  rcases hrun : right.gather false r [] with ⟨rs, e | w, t⟩
  · have hnone : right.rest? r = none := by
      rw [Option.eq_none_iff_forall_not_mem]
      intro rs hrs
      obtain ⟨t, hok⟩ := (hgather rs.reverse).mpr (by rw [List.reverse_reverse]; exact hrs)
      rw [hrun] at hok
      cases hok
    rw [hnone]
    exact (Option.bind_fun_none (left.rest? l)).symm
  · rw [(hgather rs).mp ⟨t, hrun⟩]
    exact rest?_join type condition width l t rs.reverse

end Rest

end BlockQuery.RowSource
