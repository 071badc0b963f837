import BlockQuery.Operator.IndexChoice
import BlockQuery.Proofs.Expr.Conjuncts
import BlockQuery.Proofs.Float8.Rounding
import BlockQuery.Proofs.Index.Bounds

/-!
# What a chosen look-up finds

A look-up made of tests that a value passes admits the value.  Its keys can be
searched among the values of the column, also where integers meet doubles:
rounding integers to doubles keeps their order.
-/

namespace BlockQuery

open Std (TransCmp)

/-! ## Bounds of look-ups -/

namespace IndexLookup

def lower : IndexLookup → Index.Bound
  | eq key => .included key
  | range lower _ => lower

def upper : IndexLookup → Index.Bound
  | eq key => .included key
  | range _ upper => upper

/-- Whether a look-up is taken to find nothing by its bounds alone. -/
def inverted (order : RowOrder) (l : IndexLookup) : Bool := l.lower.inverted order l.upper

/-- Whether a key lies within the bounds of a look-up. -/
def admits (order : RowOrder) (l : IndexLookup) (key : Row) : Bool :=
  l.lower.admitsAbove order key && l.upper.admitsBelow order key

end IndexLookup

theorem IndexScan.find_eq (scan : IndexScan) :
    scan.find = (scan.index.scan scan.lookup.lower scan.lookup.upper).bind Index.Scan.offsets := by
  rw [find]
  cases scan.lookup <;> rfl

/-- An order by one key is the order of this key. -/
theorem RowOrder.compare_of_keys {order : RowOrder} {key : SortKey} (h : order.keys = [key])
    (a b : Row) : order.compare a b = key.compare a b := by
  rw [compare, h, compareKeys]
  exact Ordering.then_eq

/-! ## Tests -/

namespace KeyTest

variable {schema : Schema} {e : Expr} {t : KeyTest} {tests : List KeyTest} {d : Datum}
  {ascending : Bool} {l : IndexLookup} {b : Index.Bound}

/-- Whether a value passes a test. -/
structure Passes (d : Datum) (t : KeyTest) : Prop where
  value_ne : d ≠ .null
  key_ne : t.value ≠ .null
  holds : t.op.holds (d.totalCompare t.value) = true

theorem ofExpr?_eq_some (h : ofExpr? schema e = some t) :
    ∃ name i column, e.columnComparison? = some (name, t.op, t.value) ∧
      schema.find name = .ok i ∧ schema[i]? = some column ∧ column.simple = t.column ∧
        t.value.isKeyFor column.type = true := by
  rw [ofExpr?] at h
  obtain ⟨⟨name, op, value⟩, hcomparison, h⟩ := Option.bind_eq_some_iff.mp h
  obtain ⟨column, hcolumn, h⟩ := Option.bind_eq_some_iff.mp h
  obtain ⟨i, hfind, hget⟩ := Option.bind_eq_some_iff.mp hcolumn
  obtain ⟨_, hkey, h⟩ := Option.bind_eq_some_iff.mp h
  cases h
  refine ⟨name, i, column, hcomparison, ?_, hget, rfl, ?_⟩
  · cases hresult : schema.find name with
    | error e =>
      rw [hresult] at hfind
      cases hfind
    | ok j =>
      rw [hresult] at hfind
      cases hfind
      rfl
  · by_contra hnot
    rw [guard, if_neg hnot] at hkey
    cases hkey

theorem lower?_eq_some (h : t.lower? = some b) :
    t.op = .gt ∧ b = .excluded [t.value] ∨ t.op = .gtEq ∧ b = .included [t.value] := by
  unfold lower? at h
  split at h
  next hop =>
    cases h
    exact Or.inl ⟨hop, rfl⟩
  next hop =>
    cases h
    exact Or.inr ⟨hop, rfl⟩
  next => cases h

theorem upper?_eq_some (h : t.upper? = some b) :
    t.op = .lt ∧ b = .excluded [t.value] ∨ t.op = .ltEq ∧ b = .included [t.value] := by
  unfold upper? at h
  split at h
  next hop =>
    cases h
    exact Or.inl ⟨hop, rfl⟩
  next hop =>
    cases h
    exact Or.inr ⟨hop, rfl⟩
  next => cases h

/-- Whether a bound is open or comes from one of some tests. -/
def BoundedBy (bound? : KeyTest → Option Index.Bound) (tests : List KeyTest) (b : Index.Bound) :
    Prop :=
  b = .unbounded ∨ ∃ t ∈ tests, bound? t = some b

theorem boundedBy_findSome? (bound? : KeyTest → Option Index.Bound) (tests : List KeyTest) :
    BoundedBy bound? tests ((tests.findSome? bound?).getD .unbounded) := by
  cases h : tests.findSome? bound? with
  | none => exact Or.inl rfl
  | some b =>
    obtain ⟨t, ht, hb⟩ := List.exists_of_findSome?_eq_some h
    exact Or.inr ⟨t, ht, hb⟩

/-- A look-up is an equation of one of the tests, or a range between bounds of the tests. -/
theorem lookup?_eq_some (h : lookup? ascending tests = some l) :
    (∃ t ∈ tests, t.op = .eq ∧ l = .eq [t.value]) ∨
      ∃ low high, BoundedBy lower? tests low ∧ BoundedBy upper? tests high ∧
        l = if ascending then .range low high else .range high low := by
  rw [lookup?] at h
  split at h
  next t hfind =>
    cases h
    have hop : (t.op == .eq) = true := List.find?_some (p := fun t : KeyTest => t.op == .eq) hfind
    exact Or.inl ⟨t, List.mem_of_find?_eq_some hfind, eq_of_beq hop, rfl⟩
  next =>
    have hlow := boundedBy_findSome? lower? tests
    have hhigh := boundedBy_findSome? upper? tests
    split at h
    next => cases h
    next =>
      cases h
      exact Or.inr ⟨_, _, hlow, hhigh, rfl⟩

/-- Without tests there is no look-up. -/
theorem ne_nil_of_lookup? (h : lookup? ascending tests = some l) : tests ≠ [] := by
  rintro rfl
  cases h

/-- The keys of a look-up are values of the tests. -/
theorem exists_test_of_key (h : lookup? ascending tests = some l) {key : Row}
    (hkey : l.lower.key? = some key ∨ l.upper.key? = some key) :
    ∃ t ∈ tests, key = [t.value] := by
  have hbound : ∀ b, BoundedBy lower? tests b ∨ BoundedBy upper? tests b →
      b.key? = some key → ∃ t ∈ tests, key = [t.value] := by
    rintro b ((rfl | ⟨t, ht, hb⟩) | (rfl | ⟨t, ht, hb⟩)) hkey
    · cases hkey
    · rcases lower?_eq_some hb with ⟨_, rfl⟩ | ⟨_, rfl⟩ <;> cases hkey <;> exact ⟨t, ht, rfl⟩
    · cases hkey
    · rcases upper?_eq_some hb with ⟨_, rfl⟩ | ⟨_, rfl⟩ <;> cases hkey <;> exact ⟨t, ht, rfl⟩
  rcases lookup?_eq_some h with ⟨t, ht, _, rfl⟩ | ⟨low, high, hlow, hhigh, rfl⟩
  · rcases hkey with hkey | hkey <;> cases hkey <;> exact ⟨t, ht, rfl⟩
  · cases ascending
    · exact hkey.elim (hbound high (Or.inr hhigh)) (hbound low (Or.inl hlow))
    · exact hkey.elim (hbound low (Or.inl hlow)) (hbound high (Or.inr hhigh))

/-! ## Admitted values -/

section Admits

variable {order : RowOrder}

theorem compare_singleton (hkeys : order.keys = [⟨0, ascending, false⟩]) {v : Datum}
    (hd : d ≠ .null) (hv : v ≠ .null) :
    order.compare [d] [v] = if ascending then d.totalCompare v else (d.totalCompare v).swap := by
  have hvalue : ∀ {x : Datum}, x ≠ .null → SortKey.value? ⟨0, ascending, false⟩ [x] = some x := by
    intro x hx
    cases x
    · exact absurd rfl hx
    all_goals rfl
  rw [RowOrder.compare_of_keys hkeys, SortKey.compare, hvalue hd, hvalue hv]

variable (hkeys : order.keys = [⟨0, ascending, false⟩])
include hkeys

theorem Passes.compare_eq (hpass : Passes d t) : order.compare [d] [t.value] =
    if ascending then d.totalCompare t.value else (d.totalCompare t.value).swap :=
  compare_singleton hkeys hpass.value_ne hpass.key_ne

/-- The bound that a test gives admits a value that passes it, on the side where it stands. -/
theorem Passes.admits_lower (hpass : Passes d t) (hb : t.lower? = some b) :
    if ascending then b.admitsAbove order [d] = true else b.admitsBelow order [d] = true := by
  have hcompare := hpass.compare_eq hkeys
  have hholds := hpass.holds
  rcases lower?_eq_some hb with ⟨hop, rfl⟩ | ⟨hop, rfl⟩ <;> rw [hop] at hholds <;>
    cases ascending <;>
      simp only [Index.Bound.admitsAbove, Index.Bound.admitsBelow, hcompare, if_true,
        Bool.false_eq_true, if_false] <;>
      revert hholds <;> cases d.totalCompare t.value <;> decide

theorem Passes.admits_upper (hpass : Passes d t) (hb : t.upper? = some b) :
    if ascending then b.admitsBelow order [d] = true else b.admitsAbove order [d] = true := by
  have hcompare := hpass.compare_eq hkeys
  have hholds := hpass.holds
  rcases upper?_eq_some hb with ⟨hop, rfl⟩ | ⟨hop, rfl⟩ <;> rw [hop] at hholds <;>
    cases ascending <;>
      simp only [Index.Bound.admitsAbove, Index.Bound.admitsBelow, hcompare, if_true,
        Bool.false_eq_true, if_false] <;>
      revert hholds <;> cases d.totalCompare t.value <;> decide

/-- A value that passes all tests is admitted by the look-up made of them. -/
theorem admits_of_passes (h : lookup? ascending tests = some l) (hpass : ∀ t ∈ tests, Passes d t) :
    l.admits order [d] = true := by
  rcases lookup?_eq_some h with ⟨t, ht, hop, rfl⟩ | ⟨low, high, hlow, hhigh, rfl⟩
  · have hcompare := (hpass t ht).compare_eq hkeys
    have hholds := (hpass t ht).holds
    rw [hop] at hholds
    rw [eq_of_beq hholds] at hcompare
    have heq : order.compare [d] [t.value] = .eq := by cases ascending <;> exact hcompare
    simp [IndexLookup.admits, IndexLookup.lower, IndexLookup.upper, Index.Bound.admitsAbove,
      Index.Bound.admitsBelow, heq]
  · have hbelow : if ascending then low.admitsAbove order [d] = true
        else low.admitsBelow order [d] = true := by
      rcases hlow with rfl | ⟨t, ht, hb⟩
      · cases ascending <;> rfl
      · exact (hpass t ht).admits_lower hkeys hb
    have habove : if ascending then high.admitsBelow order [d] = true
        else high.admitsAbove order [d] = true := by
      rcases hhigh with rfl | ⟨t, ht, hb⟩
      · cases ascending <;> rfl
      · exact (hpass t ht).admits_upper hkeys hb
    rw [IndexLookup.admits, Bool.and_eq_true]
    cases ascending
    · exact ⟨habove, hbelow⟩
    · exact ⟨hbelow, habove⟩

end Admits

end KeyTest

/-! ## Searching -/

namespace Datum

/-- The type as whose values those of a type are compared with a key. -/
def commonType (type : DataType) (key : Datum) : DataType :=
  match type, key with
  | .int4, .float8 _ | .int8, .float8 _ => .float8
  | type, _ => type

variable {type : DataType} {d d' key : Datum}

theorem totalCompare_key (hd : d.type? = some type) (hkey : key.isKeyFor type = true) :
    d.totalCompare key = compareAs (commonType type key) d key := by
  cases type <;> cases d <;> cases hd <;> cases key <;> first | rfl | cases hkey

theorem isLE_compareAs_ofInt {a b : ℤ} (h : (compare a b).isLE) :
    (compare (some (Float8.ofInt a).rank) (some (Float8.ofInt b).rank)).isLE := by
  have hle : a ≤ b := Std.isLE_compare.mp h
  have hrank : (compare (Float8.ofInt a).rank (Float8.ofInt b).rank).isLE :=
    Std.isLE_compare.mpr (Float8.rank_ofInt_mono hle)
  exact hrank

/-- Values in order stay in order where a key makes them compared as doubles. -/
theorem isLE_compareAs_commonType (hd : d.type? = some type) (hd' : d'.type? = some type)
    (key : Datum) (h : (d.totalCompare d').isLE) :
    (compareAs (commonType type key) d d').isLE := by
  have hsame : (compareAs type d d').isLE := by
    rwa [← totalCompare_eq (comparesAs_of_type hd) (comparesAs_of_type hd')]
  unfold commonType
  split
  next =>
    cases d <;> cases hd
    cases d' <;> cases hd'
    exact isLE_compareAs_ofInt hsame
  next =>
    cases d <;> cases hd
    cases d' <;> cases hd'
    exact isLE_compareAs_ofInt hsame
  next => exact hsame

end Datum

/-- Whether entries have one value each, null or of a type. -/
def OfType (type : DataType) (entries : List (Row × ℕ)) : Prop :=
  ∀ e ∈ entries, ∃ d : Datum, e.1 = [d] ∧ (d = .null ∨ d.type? = some type)

section Searching

variable {order : RowOrder} {ascending : Bool} {type : DataType} {entries : List (Row × ℕ)}
  {v : Datum}

theorem value?_of_ofType (ascending : Bool) {d : Datum} (h : d = .null ∨ d.type? = some type) :
    SortKey.value? ⟨0, ascending, false⟩ [d] = none ∨
      SortKey.value? ⟨0, ascending, false⟩ [d] = some d ∧ d.type? = some type := by
  rcases h with rfl | h
  · exact Or.inl rfl
  · cases d <;> cases h <;> exact Or.inr ⟨rfl, rfl⟩

/-- A key that fits the type of a column can be searched among the column's values. -/
theorem searchable_of_isKeyFor (hkeys : order.keys = [⟨0, ascending, false⟩])
    (hentries : OfType type entries) (hv : v.isKeyFor type = true) :
    Index.Searchable order entries [v] := by
  have htrans := Datum.transCmp_compareAs (Datum.commonType type v)
  have hkey : SortKey.value? ⟨0, ascending, false⟩ [v] = some v := by
    cases v <;> first | rfl | cases hv
  refine ⟨SortKey.compareAs (Datum.commonType type v) ⟨0, ascending, false⟩,
    SortKey.transCmp_compareAs _ _, ?_, ?_⟩
  · intro e he
    obtain ⟨d, hd, htype⟩ := hentries e he
    rw [RowOrder.compare_of_keys hkeys, hd, SortKey.compare, SortKey.compareAs, hkey]
    rcases value?_of_ofType ascending htype with hnone | ⟨hsome, htype⟩
    · rw [hnone]
      rfl
    · rw [hsome]
      dsimp only [SortKey.withNulls]
      rw [Datum.totalCompare_key htype hv]
      split
      · rfl
      · exact htrans.eq_swap.symm
  · intro a ha b hb hab
    obtain ⟨d, hd, htype⟩ := hentries a ha
    obtain ⟨d', hd', htype'⟩ := hentries b hb
    rw [RowOrder.compare_of_keys hkeys, hd, hd', SortKey.compare] at hab
    rw [hd, hd', SortKey.compareAs]
    rcases value?_of_ofType ascending htype with hnone | ⟨hsome, htype⟩ <;>
      rcases value?_of_ofType ascending htype' with hnone' | ⟨hsome', htype'⟩
    · rw [hnone, hnone']
      rfl
    · rw [hnone, hsome'] at hab
      cases hab
    · rw [hsome, hnone']
      rfl
    · rw [hsome, hsome'] at hab ⊢
      dsimp only [SortKey.withNulls] at hab ⊢
      cases ascending
      · apply Datum.isLE_compareAs_commonType htype' htype
        rwa [Datum.totalCompare_swap d d']
      · exact Datum.isLE_compareAs_commonType htype htype' v hab

end Searching

end BlockQuery
