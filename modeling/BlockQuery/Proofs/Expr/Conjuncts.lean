import BlockQuery.Expr.Eval
import BlockQuery.Proofs.Except
import BlockQuery.Proofs.Row.Order

/-!
# Conjuncts of a predicate

A predicate holds of a row only if each of its conjuncts does.  A conjunct that
compares a column with a literal bounds the value of the column.
-/

namespace BlockQuery

/-! ## Truth of conjunctions -/

theorem Connective.eval_and_eq_true {l r : Datum} (h : Connective.and.eval l r = .ok (.bool true)) :
    l = .bool true ∧ r = .bool true := by
  obtain ⟨x, hx, h⟩ := Except.bind_eq_ok.mp h
  obtain ⟨y, hy, h⟩ := Except.bind_eq_ok.mp h
  have hvalue : ∀ {d : Datum} {o : Option Bool}, Connective.and.operand d = .ok o →
      o = some true → d = .bool true := by
    intro d o hd ho
    subst ho
    cases d <;> cases hd
    rfl
  have hboth : x = some true ∧ y = some true := by
    rcases x with _ | _ | _ <;> rcases y with _ | _ | _ <;> first | exact ⟨rfl, rfl⟩ | cases h
  exact ⟨hvalue hx hboth.1, hvalue hy hboth.2⟩

namespace Expr

variable {schema : Schema} {row : Row}

/-- Whether an expression is bound and true of a row. -/
def IsTrue (schema : Schema) (row : Row) (e : Expr) : Prop :=
  ∃ b, e.bind schema = .ok b ∧ b.eval row = .ok (.bool true)

theorem isTrue_of_and {l r : Expr} (h : IsTrue schema row (l.and r)) :
    IsTrue schema row l ∧ IsTrue schema row r := by
  obtain ⟨b, hbind, htrue⟩ := h
  obtain ⟨lb, hl, hbind⟩ := Except.bind_eq_ok.mp hbind
  obtain ⟨rb, hr, hbind⟩ := Except.bind_eq_ok.mp hbind
  cases hbind
  rw [BoundExpr.eval] at htrue
  obtain ⟨x, hx, htrue⟩ := Except.bind_eq_ok.mp htrue
  split at htrue
  next value hdecided =>
    -- The left operand alone can only make a conjunction false.
    cases htrue
    rcases x with _ | (_ | _) | _ | _ | _ | _ <;> cases hdecided
  next =>
    obtain ⟨y, hy, htrue⟩ := Except.bind_eq_ok.mp htrue
    obtain ⟨rfl, rfl⟩ := Connective.eval_and_eq_true htrue
    exact ⟨⟨lb, hl, hx⟩, ⟨rb, hr, hy⟩⟩

theorem isTrue_conjuncts {p : Expr} (h : IsTrue schema row p) :
    ∀ e ∈ p.conjuncts, IsTrue schema row e := by
  fun_induction conjuncts p with
  | case1 l r ihl ihr =>
    obtain ⟨hl, hr⟩ := isTrue_of_and h
    intro e he
    rcases List.mem_append.mp he with he | he
    · exact ihl hl e he
    · exact ihr hr e he
  | case2 p _ =>
    intro e he
    rwa [List.mem_singleton.mp he]

end Expr

/-! ## Comparisons with literals -/

theorem Comparison.eval_eq_true {op : Comparison} {a b : Datum}
    (h : op.eval a b = .ok (.bool true)) :
    a ≠ .null ∧ b ≠ .null ∧ op.holds (a.totalCompare b) = true := by
  rw [Comparison.eval] at h
  split at h
  next => cases h
  next hnull =>
    rw [Bool.or_eq_true, not_or] at hnull
    split at h
    next =>
      refine ⟨?_, ?_, ?_⟩
      · rintro rfl
        exact hnull.1 rfl
      · rintro rfl
        exact hnull.2 rfl
      · injection h with h
        injection h
    next => cases h

theorem BoundExpr.eval_comparison {op : Comparison} {l r : BoundExpr} {row : Row} {d : Datum}
    (h : (BoundExpr.binary (.comparison op) l r).eval row = .ok d) :
    ∃ x y, l.eval row = .ok x ∧ r.eval row = .ok y ∧ op.eval x y = .ok d := by
  rw [eval] at h
  obtain ⟨x, hx, h⟩ := Except.bind_eq_ok.mp h
  obtain ⟨y, hy, h⟩ := Except.bind_eq_ok.mp h
  exact ⟨x, y, hx, hy, h⟩

theorem BoundExpr.eval_column_eq_ok {i : ℕ} {name : String} {row : Row} {d : Datum}
    (h : (BoundExpr.column i name).eval row = .ok d) : row[i]? = some d := by
  rw [eval] at h
  split at h
  next hvalue =>
    cases h
    exact hvalue
  next => cases h

namespace Expr

variable {schema : Schema} {row : Row} {name : String} {op : Comparison} {v : Datum} {i : ℕ}

theorem bind_column (h : schema.find name = .ok i) :
    (column name).bind schema = .ok (.column i name) := by
  rw [Expr.bind, h]

theorem bind_binary {o : BinaryOp} {l r : Expr} {lb rb : BoundExpr} (hl : l.bind schema = .ok lb)
    (hr : r.bind schema = .ok rb) : (binary o l r).bind schema = .ok (.binary o lb rb) := by
  rw [Expr.bind, hl, hr]
  rfl

/-- The two ways to write a comparison of a column with a literal. -/
theorem columnComparison?_eq_some {e : Expr} (h : e.columnComparison? = some (name, op, v)) :
    e = compare op (column name) (literal v) ∨
      e = compare op.flipped (literal v) (column name) := by
  unfold columnComparison? at h
  split at h
  · cases h
    exact Or.inl rfl
  · cases h
    rw [Comparison.flipped_flipped]
    exact Or.inr rfl
  · cases h

/-- A true comparison of a column with a literal bounds the value of the column. -/
theorem holds_of_isTrue {e : Expr} (h : e.columnComparison? = some (name, op, v))
    (hfind : schema.find name = .ok i) (htrue : IsTrue schema row e) :
    ∃ d, row[i]? = some d ∧ d ≠ .null ∧ v ≠ .null ∧ op.holds (d.totalCompare v) = true := by
  obtain ⟨b, hbind, htrue⟩ := htrue
  have hliteral : (literal v).bind schema = .ok (.literal v) := rfl
  rcases columnComparison?_eq_some h with rfl | rfl
  · have hbound := bind_binary (o := .comparison op) (bind_column hfind) hliteral
    cases hbind.symm.trans hbound
    obtain ⟨x, y, hx, hy, hcompare⟩ := BoundExpr.eval_comparison htrue
    cases hy
    obtain ⟨hnull, hnull', hholds⟩ := Comparison.eval_eq_true hcompare
    exact ⟨x, BoundExpr.eval_column_eq_ok hx, hnull, hnull', hholds⟩
  · have hbound := bind_binary (o := .comparison op.flipped) hliteral (bind_column hfind)
    cases hbind.symm.trans hbound
    obtain ⟨x, y, hx, hy, hcompare⟩ := BoundExpr.eval_comparison htrue
    cases hx
    obtain ⟨hnull, hnull', hholds⟩ := Comparison.eval_eq_true hcompare
    rw [Datum.totalCompare_swap y v, Comparison.holds_flipped] at hholds
    exact ⟨y, BoundExpr.eval_column_eq_ok hy, hnull', hnull, hholds⟩

end Expr

end BlockQuery
