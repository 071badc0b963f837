import BlockQuery.Proofs.Expr.Conjuncts
import BlockQuery.Proofs.Row.Columns

/-!
# Columns that a join equates

The pairs of a join condition are looked up in the schemas of both sides, but the condition itself
is bound to the columns of both together.  There a name that is exactly a column's goes to this
column, whichever side it is on.  The pair of an equation therefore names the columns that the
equation compares unless one of its names, or only one, goes over to the other side.
-/

namespace BlockQuery

namespace Schema

variable {schema left right : Schema} {name : String} {i p q : ℕ}

/-- The position of the first column of exactly the given name. -/
def exactly? (schema : Schema) (name : String) : Option ℕ := schema.findIdx? (·.name == name)

theorem find_eq_ok_iff : schema.find name = .ok i ↔ schema.exactly? name = some i ∨
    schema.exactly? name = none ∧ schema.answering name = [i] := by
  cases hexact : schema.exactly? name with
  | some j =>
    rw [find_of_findIdx? hexact]
    simp
  | none =>
    have hnone : schema.findIdx? (·.name == name) = none := hexact
    rw [find, hnone]
    rcases schema.answering name with _ | ⟨j, _ | ⟨k, rest⟩⟩ <;> simp

theorem lt_of_find (h : schema.find name = .ok i) : i < schema.length := by
  obtain ⟨c, hc, -⟩ := exists_column_of_find h
  exact (List.getElem?_eq_some_iff.mp hc).1

theorem lt_of_exactly? (h : schema.exactly? name = some i) : i < schema.length :=
  lt_of_find (find_eq_ok_iff.mpr (.inl h))

theorem exactly?_append (left right : Schema) (name : String) : (left ++ right).exactly? name =
    (left.exactly? name).or ((right.exactly? name).map (· + left.length)) :=
  List.findIdx?_append

theorem answering_append (left right : Schema) (name : String) : (left ++ right).answering name =
    left.answering name ++ (right.answering name).map (left.length + ·) := by
  have hshift : right.zipIdx left.length =
      right.zipIdx.map fun cell => (cell.1, left.length + cell.2) := List.zipIdx_eq_map_add
  simp [answering, List.zipIdx_append, hshift, List.filter_map, Function.comp_def]

/-- A name of a left column means this column in both schemas together, or the right column of
exactly this name. -/
theorem find_append_left (hleft : left.find name = .ok p)
    (hboth : (left ++ right).find name = .ok i) :
    (left.exactly? name = none → right.exactly? name = none) ∧ i = p ∨
      left.exactly? name = none ∧ ∃ k, right.exactly? name = some k ∧ i = left.length + k := by
  rw [find_eq_ok_iff, exactly?_append, answering_append] at hboth
  rcases find_eq_ok_iff.mp hleft with hexact | ⟨hnone, hanswering⟩
  · left
    simp_all
  · rw [hnone, hanswering] at hboth
    cases hright : right.exactly? name with
    | none =>
      left
      simp_all
    | some k =>
      right
      simp_all [add_comm]

/-- A name of a right column means this column in both schemas together, or the left column of
exactly this name. -/
theorem find_append_right (hright : right.find name = .ok q)
    (hboth : (left ++ right).find name = .ok i) :
    left.exactly? name = none ∧ i = left.length + q ∨ left.exactly? name = some i := by
  rw [find_eq_ok_iff, exactly?_append, answering_append] at hboth
  cases hleft : left.exactly? name with
  | some k =>
    right
    simp_all
  | none =>
    left
    rcases find_eq_ok_iff.mp hright with hexact | ⟨hnone, hanswering⟩
    · simp_all [add_comm]
    · rw [hleft, hnone, hanswering] at hboth
      simp only [List.map_cons, List.map_nil, List.append_eq_singleton_iff] at hboth
      simp_all

end Schema

namespace Expr

variable {left right : Schema} {condition conjunct : Expr} {bound : BoundExpr} {a b l r : String}
  {p q : ℕ}

/-- Whether the names of a pair keep to the columns that they mean on their sides once both sides
are together, or change to just each other's. -/
def KeepsColumns (left right : Schema) (l r : String) (p q : ℕ) : Prop :=
  (left.exactly? l = none → right.exactly? l = none) ∧ left.exactly? r = none ∨
    left.exactly? l = none ∧ right.exactly? l = some q ∧ left.exactly? r = some p

theorem equiPair?_eq_some (h : equiPair? left right conjunct = some (l, r)) :
    (left.has l ∧ right.has r) ∧ (conjunct = compare .eq (column l) (column r) ∨
      conjunct = compare .eq (column r) (column l)) := by
  unfold equiPair? at h
  split at h
  next a b =>
    split at h
    next hab =>
      cases h
      exact ⟨by simpa using hab, .inl rfl⟩
    next =>
      split at h
      next hba =>
        cases h
        exact ⟨by simpa using hba, .inr rfl⟩
      next => cases h
  next => cases h

theorem exists_find_of_has {schema : Schema} {name : String} (h : schema.has name) :
    ∃ i, schema.find name = .ok i := by
  rw [Schema.has] at h
  cases hfind : schema.find name with
  | ok i => exact ⟨i, rfl⟩
  | error e => simp [hfind, Except.isOk, Except.toBool] at h

/-- A name is bound to the column that it means. -/
theorem exists_find_of_bind {schema : Schema} {name : String}
    (h : (column name).bind schema = .ok bound) :
    ∃ i, schema.find name = .ok i ∧ bound = .column i name := by
  rw [Expr.bind] at h
  cases hfind : schema.find name with
  | ok i =>
    simp [hfind] at h
    exact ⟨i, rfl, h.symm⟩
  | error e => simp [hfind] at h

theorem exists_find_of_bind_compare {schema : Schema} {op : Comparison}
    (h : (compare op (column a) (column b)).bind schema = .ok bound) :
    ∃ i j, schema.find a = .ok i ∧ schema.find b = .ok j ∧
      bound = .binary (.comparison op) (.column i a) (.column j b) := by
  obtain ⟨x, hx, h⟩ := Except.bind_eq_ok.mp h
  obtain ⟨y, hy, h⟩ := Except.bind_eq_ok.mp h
  obtain ⟨i, hi, rfl⟩ := exists_find_of_bind hx
  obtain ⟨j, hj, rfl⟩ := exists_find_of_bind hy
  cases h
  exact ⟨i, j, hi, hj, rfl⟩

theorem keepsColumns_iff {i j : ℕ} (hl : left.find l = .ok p) (hr : right.find r = .ok q)
    (hi : (left ++ right).find l = .ok i) (hj : (left ++ right).find r = .ok j) :
    i = p ∧ j = left.length + q ∨ i = left.length + q ∧ j = p ↔
      KeepsColumns left right l r p q := by
  have hp := Schema.lt_of_find hl
  rw [KeepsColumns]
  rcases Schema.find_append_left hl hi with ⟨hkeep, rfl⟩ | ⟨hnone, k, hk, rfl⟩ <;>
    rcases Schema.find_append_right hr hj with ⟨hnone', rfl⟩ | hexact
  · exact ⟨fun _ => .inl ⟨hkeep, hnone'⟩, fun _ => .inl ⟨rfl, rfl⟩⟩
  · have hlt := Schema.lt_of_exactly? hexact
    constructor
    · omega
    · rintro (⟨-, hnone⟩ | ⟨hnone, hsome, -⟩)
      · simp [hexact] at hnone
      · simp [hkeep hnone] at hsome
  · constructor
    · omega
    · rintro (⟨hkeep, -⟩ | ⟨-, -, hsome⟩)
      · simp [hkeep hnone] at hk
      · simp [hnone'] at hsome
  · rw [hnone, hk, hexact]
    have hlt := Schema.lt_of_exactly? hexact
    simp
    omega

/-- Whether two values are equal as join keys, which nulls never are. -/
def SameKey (u v : Datum) : Prop := u ≠ .null ∧ v ≠ .null ∧ u.totalCompare v = .eq

theorem SameKey.symm {u v : Datum} (h : SameKey u v) : SameKey v u := by
  refine ⟨h.2.1, h.1, ?_⟩
  rw [Datum.totalCompare_swap u v, h.2.2]
  rfl

theorem exists_sameKey_of_isTrue {schema : Schema} {row : Row} {i j : ℕ}
    (hi : schema.find a = .ok i) (hj : schema.find b = .ok j)
    (h : IsTrue schema row (compare .eq (column a) (column b))) :
    ∃ u v, row[i]? = some u ∧ row[j]? = some v ∧ SameKey u v := by
  obtain ⟨bound, hbind, htrue⟩ := h
  cases hbind.symm.trans (bind_binary (bind_column hi) (bind_column hj))
  obtain ⟨u, v, hu, hv, heval⟩ := BoundExpr.eval_comparison htrue
  obtain ⟨hu', hv', hholds⟩ := Comparison.eval_eq_true heval
  refine ⟨u, v, BoundExpr.eval_column_eq_ok hu, BoundExpr.eval_column_eq_ok hv, hu', hv', ?_⟩
  simpa [Comparison.holds] using hholds

/-- Two values of a joined row are those of its sides. -/
theorem exists_sameKey_of_append {x y : Row} {i j : ℕ} (hp : p < x.length)
    (hij : i = p ∧ j = x.length + q ∨ i = x.length + q ∧ j = p)
    (h : ∃ u v, (x ++ y)[i]? = some u ∧ (x ++ y)[j]? = some v ∧ SameKey u v) :
    ∃ u v, x[p]? = some u ∧ y[q]? = some v ∧ SameKey u v := by
  have hleft : (x ++ y)[p]? = x[p]? := List.getElem?_append_left hp
  have hright : (x ++ y)[x.length + q]? = y[q]? := by
    rw [List.getElem?_append_right (Nat.le_add_right _ _), Nat.add_sub_cancel_left]
  obtain ⟨u, v, hu, hv, hsame⟩ := h
  rcases hij with ⟨rfl, rfl⟩ | ⟨rfl, rfl⟩
  · exact ⟨u, v, hleft ▸ hu, hright ▸ hv, hsame⟩
  · exact ⟨v, u, hleft ▸ hv, hright ▸ hu, hsame.symm⟩

/-- Each pair of a join condition is that of an equation among its conjuncts.  If this is bound to
the columns of both sides together, it compares the two columns of the pair just if their names
keep to them, and then these columns are equal in all rows for which the condition holds. -/
theorem equiPairs_compare_iff (left right : Schema) (condition : Expr) :
    (∀ pair, pair ∈ condition.equiPairs left right ↔
        ∃ conjunct ∈ condition.conjuncts, equiPair? left right conjunct = some pair) ∧
      ∀ conjunct ∈ condition.conjuncts, ∀ l r, equiPair? left right conjunct = some (l, r) →
        ∃ a b p q, conjunct = compare .eq (column a) (column b) ∧ (a = l ∧ b = r ∨ a = r ∧ b = l) ∧
          left.find l = .ok p ∧ right.find r = .ok q ∧
          ∀ bound, conjunct.bind (left ++ right) = .ok bound →
            ∃ i j, bound = .binary (.comparison .eq) (.column i a) (.column j b) ∧
              ((i = p ∧ j = left.length + q ∨ i = left.length + q ∧ j = p) ↔
                KeepsColumns left right l r p q) ∧
              (KeepsColumns left right l r p q → ∀ x y : Row, x.length = left.length →
                IsTrue (left ++ right) (x ++ y) condition →
                  ∃ u v, x[p]? = some u ∧ y[q]? = some v ∧ SameKey u v) := by
  refine ⟨fun pair => List.mem_filterMap, fun conjunct hmem l r hpair => ?_⟩
  obtain ⟨⟨hleft, hright⟩, hconjunct⟩ := equiPair?_eq_some hpair
  obtain ⟨p, hp⟩ := exists_find_of_has hleft
  obtain ⟨q, hq⟩ := exists_find_of_has hright
  obtain ⟨a, b, rfl, hab⟩ : ∃ a b, conjunct = compare .eq (column a) (column b) ∧
      (a = l ∧ b = r ∨ a = r ∧ b = l) := by
    rcases hconjunct with rfl | rfl
    · exact ⟨l, r, rfl, .inl ⟨rfl, rfl⟩⟩
    · exact ⟨r, l, rfl, .inr ⟨rfl, rfl⟩⟩
  refine ⟨a, b, p, q, rfl, hab, hp, hq, fun bound hbind => ?_⟩
  obtain ⟨i, j, hi, hj, rfl⟩ := exists_find_of_bind_compare hbind
  have hkeeps : i = p ∧ j = left.length + q ∨ i = left.length + q ∧ j = p ↔
      KeepsColumns left right l r p q := by
    rcases hab with ⟨rfl, rfl⟩ | ⟨rfl, rfl⟩
    · exact keepsColumns_iff hp hq hi hj
    · rw [← keepsColumns_iff hp hq hj hi]
      tauto
  refine ⟨i, j, rfl, hkeeps, fun hkeep x y hx htrue => ?_⟩
  have hsame := exists_sameKey_of_isTrue hi hj (isTrue_conjuncts htrue _ hmem)
  exact exists_sameKey_of_append (hx ▸ Schema.lt_of_find hp) (hx ▸ hkeeps.mpr hkeep) hsame

/-- Both names of a pair change sides, and the equation compares the two columns all the same. -/
theorem equiPairs_compare_crossed :
    KeepsColumns [⟨"a.id", .int4⟩] [⟨"id", .int4⟩] "id" "a.id" 0 0 ∧
      ∃ i j, (compare .eq (column "id") (column "a.id")).bind
            ([⟨"a.id", .int4⟩] ++ [⟨"id", .int4⟩]) =
          .ok (.binary (.comparison .eq) (.column i "id") (.column j "a.id")) ∧
        (i = 0 ∧ j = 1 ∨ i = 1 ∧ j = 0) := by
  have hkeeps : KeepsColumns [⟨"a.id", .int4⟩] [⟨"id", .int4⟩] "id" "a.id" 0 0 := by
    right
    refine ⟨?_, ?_, ?_⟩ <;> cbv
  have hpair : equiPair? [⟨"a.id", .int4⟩] [⟨"id", .int4⟩]
      (compare .eq (column "id") (column "a.id")) = some ("id", "a.id") := by
    cbv
  have hbind : (compare .eq (column "id") (column "a.id")).bind
      ([⟨"a.id", .int4⟩] ++ [⟨"id", .int4⟩]) =
        .ok (.binary (.comparison .eq) (.column 1 "id") (.column 0 "a.id")) := by
    cbv
  obtain ⟨a, b, p, q, hconjunct, -, hp, hq, hbound⟩ :=
    (equiPairs_compare_iff [⟨"a.id", .int4⟩] [⟨"id", .int4⟩]
      (compare .eq (column "id") (column "a.id"))).2 _ (List.mem_singleton_self _) _ _ hpair
  obtain ⟨i, j, heq, hcompares, -⟩ := hbound _ hbind
  cases hconjunct
  cases heq
  have hp' : Schema.find [⟨"a.id", .int4⟩] "id" = .ok 0 := by cbv
  have hq' : Schema.find [⟨"id", .int4⟩] "a.id" = .ok 0 := by cbv
  cases hp.symm.trans hp'
  cases hq.symm.trans hq'
  exact ⟨hkeeps, 1, 0, hbind, hcompares.mpr hkeeps⟩

/-- A name by which the left column is found is exactly that of a right column, so that the
equation compares two right columns. -/
theorem exists_pair_of_right_columns :
    ∃ (left right : Schema) (i j p q : ℕ),
      (compare .eq (column "id") (column "z")).equiPairs left right = [("id", "z")] ∧
      left.find "id" = .ok p ∧ right.find "z" = .ok q ∧
      (compare .eq (column "id") (column "z")).bind (left ++ right) =
        .ok (.binary (.comparison .eq) (.column i "id") (.column j "z")) ∧
      left.length ≤ i ∧ left.length ≤ j ∧
      ¬(i = p ∧ j = left.length + q ∨ i = left.length + q ∧ j = p) := by
  refine ⟨[⟨"x.id", .int4⟩], [⟨"id", .int4⟩, ⟨"z", .int4⟩], 1, 2, 0, 1, ?_, ?_, ?_, ?_, ?_⟩
  case refine_5 => decide
  all_goals cbv

end Expr

end BlockQuery
