import BlockQuery.Plan
import BlockQuery.RowSource

/-!
# Joins

A join keeps all rows of its right side and goes through them for every row of
its left side.  A left outer join yields a left row without a partner once,
with nulls for the right side.
-/

namespace BlockQuery.RowSource

/-- Whether a joined row satisfies a join condition; there may be none. -/
def meets (condition : Option BoundExpr) (row : Row) : Except EvalError Bool :=
  match condition with
  | none => .ok true
  | some e => e.keeps row

/-- The first of some right rows that joins with a left row, and the position
behind it. -/
def probe (condition : Option BoundExpr) (left : Row) (position : Nat) :
    List Row → Except EvalError (Option Row) × Nat
  | [] => (.ok none, position)
  | right :: rest =>
    match meets condition (left ++ right) with
    | .error e => (.error e, position + 1)
    | .ok true => (.ok (some (left ++ right)), position + 1)
    | .ok false => probe condition left (position + 1) rest

theorem probe_position {condition : Option BoundExpr} {left row : Row} {position p : Nat}
    {rights : List Row} (h : probe condition left position rights = (.ok (some row), p)) :
    position < p ∧ p ≤ position + rights.length := by
  induction rights generalizing position with
  | nil => simp [probe] at h
  | cons right rest ih =>
    unfold probe at h
    split at h
    · simp at h
    · simp only [Prod.mk.injEq] at h
      simp only [List.length_cons]
      omega
    · have := ih h
      simp only [List.length_cons]
      omega

structure JoinState (left right : RowSource) where
  left : left.State
  right : right.State
  /-- The rows of the right side. -/
  rows : List Row
  /-- The left row that is being joined. -/
  current : Option Row
  /-- The position among the right rows. -/
  position : Nat
  matched : Bool

namespace JoinState

variable {left right : RowSource}

/-- The next joined row; `width` is that of the right side. -/
def next (type : JoinType) (condition : Option BoundExpr) (width : Nat) (cancelled : Bool)
    (s : JoinState left right) : Except ExecError (Option Row) × JoinState left right :=
  match _hc : s.current with
  | some row =>
    match probe condition row s.position (s.rows.drop s.position) with
    | (.error e, p) => (.error (.eval e), { s with position := p })
    | (.ok (some joined), p) => (.ok (some joined), { s with position := p, matched := true })
    | (.ok none, p) =>
      if type = .leftOuter ∧ !s.matched then
        (.ok (some (row ++ Row.nulls width)), { s with position := p, current := none })
      else next type condition width cancelled { s with position := p, current := none }
  | none =>
    match _hn : left.next cancelled s.left with
    | (.error e, t) => (.error e, { s with left := t })
    | (.ok none, t) => (.ok none, { s with left := t, position := 0, matched := false })
    | (.ok (some row), t) =>
      next type condition width cancelled
        { s with left := t, current := some row, position := 0, matched := false }
termination_by (left.left s.left, s.current.isSome.toNat)
decreasing_by
  · simp [_hc, Prod.lex_def]
  · have := left.left_lt _hn
    simp [Prod.lex_def, this]

def remaining (s : JoinState left right) : Nat :=
  left.left s.left * (s.rows.length + 1) +
    match s.current with
    | some _ => s.rows.length - s.position + 1
    | none => 0

theorem remaining_lt_of_next {type : JoinType} {condition : Option BoundExpr} {width : Nat}
    {cancelled : Bool} {s s' : JoinState left right} {row : Row}
    (h : s.next type condition width cancelled = (.ok (some row), s')) :
    s'.remaining < s.remaining := by
  fun_induction next type condition width cancelled s with
  | case1 => simp at h
  | case2 s r hc joined p hprobe =>
    have := probe_position hprobe
    simp only [Prod.mk.injEq] at h
    simp only [List.length_drop] at this
    simp only [← h.2, remaining, hc]
    omega
  | case3 s r hc p hprobe _ =>
    simp only [Prod.mk.injEq] at h
    simp only [← h.2, remaining, hc]
    omega
  | case4 s r hc p hprobe _ ih =>
    refine Nat.lt_of_lt_of_le (ih h) ?_
    simp only [remaining, hc]
    omega
  | case5 => simp at h
  | case6 => simp at h
  | case7 s hc r t hnext ih =>
    refine Nat.lt_of_lt_of_le (ih h) ?_
    have hlt := left.left_lt hnext
    have hmul := Nat.mul_le_mul_right (s.rows.length + 1) (Nat.succ_le_of_lt hlt)
    simp only [remaining, hc]
    rw [Nat.succ_mul] at hmul
    omega

/-- Starts both sides and reads the rows of the right one. -/
def init (cancelled : Bool) (s : JoinState left right) :
    Except ExecError Unit × JoinState left right :=
  match left.init cancelled s.left with
  | (.error e, l) => (.error e, { s with left := l })
  | (.ok _, l) =>
    match right.init cancelled s.right with
    | (.error e, r) => (.error e, { s with left := l, right := r })
    | (.ok _, r) =>
      match right.gather cancelled r [] with
      | (rows, .error e, r) => (.error e, { s with left := l, right := r, rows := rows.reverse })
      | (rows, .ok _, r) => (.ok (), ⟨l, r, rows.reverse, none, 0, false⟩)

end JoinState

/-- The rows of two sources joined; `width` is that of the right side. -/
def join (type : JoinType) (condition : Option BoundExpr) (width : Nat)
    (left right : RowSource) : RowSource where
  State := JoinState left right
  start := ⟨left.start, right.start, [], none, 0, false⟩
  init := JoinState.init
  next cancelled s :=
    if cancelled then (.error .cancelled, s) else s.next type condition width cancelled
  reset s := { s with left := left.reset s.left, current := none, position := 0, matched := false }
  close s := { s with left := left.close s.left, right := right.close s.right, rows := [] }
  tally s := (left.tally s.left).add (right.tally s.right)
  left := JoinState.remaining
  left_lt := by
    intro cancelled s s' row h
    cases cancelled
    · exact JoinState.remaining_lt_of_next h
    · simp at h

end BlockQuery.RowSource
