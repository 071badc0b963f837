import BlockQuery.RowSource

/-!
# Selection and projection
-/

namespace BlockQuery.RowSource

variable (child : RowSource)

/-- The next row that a predicate keeps. -/
def nextKept (predicate : BoundExpr) (cancelled : Bool) (s : child.State) :
    Except ExecError (Option Row) × child.State :=
  match _h : child.next cancelled s with
  | (.error e, s') => (.error e, s')
  | (.ok none, s') => (.ok none, s')
  | (.ok (some row), s') =>
    match predicate.keeps row with
    | .error e => (.error (.eval e), s')
    | .ok true => (.ok (some row), s')
    | .ok false => nextKept predicate cancelled s'
termination_by child.left s
decreasing_by exact child.left_lt _h

theorem left_lt_of_nextKept {predicate : BoundExpr} {cancelled : Bool} {s s' : child.State}
    {row : Row} (h : child.nextKept predicate cancelled s = (.ok (some row), s')) :
    child.left s' < child.left s := by
  fun_induction nextKept child predicate cancelled s with
  | case1 => simp at h
  | case2 => simp at h
  | case3 => simp at h
  | case4 s r t hnext _ =>
    simp only [Prod.mk.injEq] at h
    exact h.2 ▸ child.left_lt hnext
  | case5 s r t hnext _ ih => exact Nat.lt_trans (ih h) (child.left_lt hnext)

/-- The rows that a predicate keeps. -/
def filter (predicate : BoundExpr) : RowSource where
  State := child.State
  start := child.start
  init := child.init
  next cancelled s :=
    if cancelled then (.error .cancelled, s) else child.nextKept predicate cancelled s
  reset := child.reset
  close := child.close
  tally := child.tally
  left := child.left
  left_lt := by
    intro cancelled s s' row h
    cases cancelled
    · exact child.left_lt_of_nextKept h
    · simp at h

/-- The next row with targets evaluated on it. -/
def nextProjected (targets : List BoundExpr) (cancelled : Bool) (s : child.State) :
    Except ExecError (Option Row) × child.State :=
  match child.next cancelled s with
  | (.error e, s') => (.error e, s')
  | (.ok none, s') => (.ok none, s')
  | (.ok (some row), s') =>
    match targets.mapM (BoundExpr.eval row) with
    | .error e => (.error (.eval e), s')
    | .ok values => (.ok (some values), s')

theorem left_lt_of_nextProjected {targets : List BoundExpr} {cancelled : Bool}
    {s s' : child.State} {row : Row}
    (h : child.nextProjected targets cancelled s = (.ok (some row), s')) :
    child.left s' < child.left s := by
  unfold nextProjected at h
  split at h
  · simp at h
  · simp at h
  next r t hnext =>
    split at h
    · simp at h
    · simp only [Prod.mk.injEq] at h
      exact h.2 ▸ child.left_lt hnext

/-- The rows with targets evaluated on them. -/
def project (targets : List BoundExpr) : RowSource where
  State := child.State
  start := child.start
  init := child.init
  next cancelled s :=
    if cancelled then (.error .cancelled, s) else child.nextProjected targets cancelled s
  reset := child.reset
  close := child.close
  tally := child.tally
  left := child.left
  left_lt := by
    intro cancelled s s' row h
    cases cancelled
    · exact child.left_lt_of_nextProjected h
    · simp at h

end BlockQuery.RowSource
