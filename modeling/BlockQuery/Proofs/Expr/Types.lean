import BlockQuery.Expr.Eval
import BlockQuery.Expr.Typing
import BlockQuery.Proofs.Row.Columns

/-!
# Expressions keep to their types

On a row that conforms to a schema, an expression that has a type there is null
or has a value of this type, if it can be evaluated at all.
-/

namespace BlockQuery

/-- Whether a value is null or of a type. -/
def Datum.Inhabits (d : Datum) (type : DataType) : Prop := d = .null ∨ d.type? = some type

/-- Whether a row has one value for each column, null or of the type of the column. -/
def Row.Conforms (row : Row) (schema : Schema) : Prop :=
  List.Forall₂ (fun d c => Datum.Inhabits d c.type) row schema

namespace Row

variable {row : Row} {schema : Schema}

theorem Conforms.at (h : row.Conforms schema) {i : ℕ} {d : Datum} (hd : row[i]? = some d) :
    ∃ c, schema[i]? = some c ∧ d.Inhabits c.type := by
  induction h generalizing i with
  | nil => cases hd
  | cons hfirst _ ih =>
    cases i with
    | zero =>
      cases hd
      exact ⟨_, rfl, hfirst⟩
    | succ i => exact ih hd

theorem Conforms.append {other : Row} {more : Schema} (h : row.Conforms schema)
    (hmore : other.Conforms more) : Row.Conforms (row ++ other) (schema ++ more) :=
  List.rel_append h hmore

theorem conforms_nulls (schema : Schema) : (nulls schema.length).Conforms schema := by
  induction schema with
  | nil => exact List.Forall₂.nil
  | cons c schema ih => exact List.Forall₂.cons (Or.inl rfl) ih

end Row

/-! ## Operations -/

theorem Comparison.inhabits_eval {op : Comparison} {l r d : Datum} (h : op.eval l r = .ok d) :
    d.Inhabits .bool := by
  rw [eval] at h
  split at h
  · cases h
    exact Or.inl rfl
  · split at h
    · cases h
      exact Or.inr rfl
    · cases h

theorem Connective.inhabits_eval {op : Connective} {l r d : Datum} (h : op.eval l r = .ok d) :
    d.Inhabits .bool := by
  obtain ⟨a, -, h⟩ := Except.bind_eq_ok.mp h
  obtain ⟨b, -, h⟩ := Except.bind_eq_ok.mp h
  cases h
  cases op.combine a b with
  | none => exact Or.inl rfl
  | some truth => exact Or.inr rfl

namespace Arithmetic

variable {op : Arithmetic} {a b d : Datum} {s t : DataType}

/-- Numbers of two types make one of the wider type. -/
theorem type?_onValues (hs : s.isNumeric = true) (ht : t.isNumeric = true)
    (ha : a.type? = some s) (hb : b.type? = some t) (h : op.onValues a b = .ok d) :
    d.type? = some (s.wider t) := by
  cases a <;> cases ha <;> cases hs
  all_goals cases b <;> cases hb <;> cases ht
  all_goals
    obtain ⟨n, -, rfl⟩ := Except.map_eq_ok.mp h
    rfl

theorem inhabits_eval (hs : s.isNumeric = true) (ht : t.isNumeric = true)
    (ha : a.Inhabits s) (hb : b.Inhabits t) (h : op.eval a b = .ok d) :
    d.Inhabits (s.wider t) := by
  rw [eval] at h
  split at h
  · cases h
    exact Or.inl rfl
  next hnull =>
    rw [Bool.or_eq_true, not_or] at hnull
    have htype : ∀ {x : Datum} {type}, x.Inhabits type → ¬x.isNull = true →
        x.type? = some type := by
      rintro x type (rfl | hx) hsome
      · exact absurd rfl hsome
      · exact hx
    have hvalue := Except.mapError_eq_ok.mp h
    exact Or.inr (type?_onValues hs ht (htype ha hnull.1) (htype hb hnull.2) hvalue)

end Arithmetic

/-- What the left operand decides alone is a truth value. -/
theorem BinaryOp.inhabits_of_decided? {op : BinaryOp} {s t type : DataType} {l d : Datum}
    (htype : op.resultType s t = .ok type) (h : op.decided? l = some d) : d.Inhabits type := by
  cases op with
  | comparison op | arithmetic op => cases h
  | connective op =>
    cases htype
    cases l with
    | bool truth =>
      rw [decided?] at h
      split at h
      · cases h
        exact Or.inr rfl
      · cases h
    | _ => cases h

theorem BinaryOp.inhabits_eval {op : BinaryOp} {s t type : DataType} {l r d : Datum}
    (htype : op.resultType s t = .ok type) (hl : l.Inhabits s) (hr : r.Inhabits t)
    (h : op.eval l r = .ok d) : d.Inhabits type := by
  cases op with
  | comparison op =>
    cases htype
    exact op.inhabits_eval h
  | connective op =>
    cases htype
    exact op.inhabits_eval h
  | arithmetic op =>
    rw [resultType] at htype
    split at htype
    next hnumeric =>
      rw [Bool.and_eq_true] at hnumeric
      cases htype
      exact Arithmetic.inhabits_eval hnumeric.1 hnumeric.2 hl hr h
    next => cases htype

/-! ## Expressions -/

section Expressions

variable {schema : Schema} {row : Row} {d : Datum} {b : BoundExpr}

theorem Row.Conforms.inhabits_column (h : row.Conforms schema) {name : String} {i : ℕ}
    {type : DataType} (hfind : schema.find name = .ok i)
    (htype : (Expr.column name).typeIn schema = .ok type) (hd : row[i]? = some d) :
    d.Inhabits type := by
  obtain ⟨c, hc, hinhabits⟩ := h.at hd
  rw [Expr.typeIn, hfind] at htype
  dsimp only at htype
  rw [hc] at htype
  cases htype
  exact hinhabits

/-- Negations and tests are truth values, whatever is under them. -/
theorem BoundExpr.inhabits_not (h : (BoundExpr.not b).eval row = .ok d) : d.Inhabits .bool := by
  obtain ⟨value, -, h⟩ := Except.bind_eq_ok.mp h
  cases value with
  | null =>
    cases h
    exact Or.inl rfl
  | bool truth =>
    cases h
    exact Or.inr rfl
  | _ => cases h

theorem BoundExpr.inhabits_isNull {negated : Bool} (h : (isNull b negated).eval row = .ok d) :
    d.Inhabits .bool := by
  obtain ⟨value, -, h⟩ := Except.bind_eq_ok.mp h
  cases h
  exact Or.inr rfl

theorem BoundExpr.inhabits_like {pattern : List Like.Part} {negated : Bool}
    (h : (like b pattern negated).eval row = .ok d) : d.Inhabits .bool := by
  obtain ⟨value, -, h⟩ := Except.bind_eq_ok.mp h
  cases value with
  | null =>
    cases h
    exact Or.inl rfl
  | text s =>
    cases h
    exact Or.inr rfl
  | _ => cases h

/-- Whether an expression is null or of a type on all rows of a schema on which it has a value. -/
def BoundExpr.Keeps (b : BoundExpr) (schema : Schema) (type : DataType) : Prop :=
  ∀ row : Row, row.Conforms schema → ∀ d, b.eval row = .ok d → d.Inhabits type

/-- An expression keeps to the type that it has in a schema. -/
theorem Expr.keeps_of_typeIn {e : Expr} {type : DataType} (htype : e.typeIn schema = .ok type)
    (hbind : e.bind schema = .ok b) : b.Keeps schema type := by
  intro row hrow d heval
  induction e generalizing b type d with
  | column name =>
    cases hfind : schema.find name with
    | error e =>
      rw [bind, hfind] at hbind
      cases hbind
    | ok i =>
      rw [bind, hfind] at hbind
      cases hbind
      rw [BoundExpr.eval] at heval
      split at heval
      next value hvalue =>
        cases heval
        exact hrow.inhabits_column hfind htype hvalue
      next => cases heval
  | literal value =>
    cases hbind
    cases heval
    cases htype
    cases value with
    | null => exact Or.inl rfl
    | _ => exact Or.inr rfl
  | binary op left right ihl ihr =>
    obtain ⟨s, hs, htype⟩ := Except.bind_eq_ok.mp htype
    obtain ⟨t, ht, htype⟩ := Except.bind_eq_ok.mp htype
    obtain ⟨lb, hl, hbind⟩ := Except.bind_eq_ok.mp hbind
    obtain ⟨rb, hr, hbind⟩ := Except.bind_eq_ok.mp hbind
    cases hbind
    obtain ⟨x, hx, heval⟩ := Except.bind_eq_ok.mp heval
    cases hdecided : op.decided? x with
    | some value =>
      rw [hdecided] at heval
      cases heval
      exact BinaryOp.inhabits_of_decided? htype hdecided
    | none =>
      rw [hdecided] at heval
      obtain ⟨y, hy, heval⟩ := Except.bind_eq_ok.mp heval
      exact BinaryOp.inhabits_eval htype (ihl hs hl x hx) (ihr ht hr y hy) heval
  | not inner =>
    obtain ⟨ib, -, rfl⟩ := Except.map_eq_ok.mp hbind
    cases htype
    exact BoundExpr.inhabits_not heval
  | isNull inner negated =>
    obtain ⟨ib, -, rfl⟩ := Except.map_eq_ok.mp hbind
    cases htype
    exact BoundExpr.inhabits_isNull heval
  | like inner pattern negated =>
    obtain ⟨ib, -, hbind⟩ := Except.bind_eq_ok.mp hbind
    dsimp only at hbind
    split at hbind
    next =>
      cases hbind
      cases htype
      exact BoundExpr.inhabits_like heval
    next => cases hbind

end Expressions

end BlockQuery
