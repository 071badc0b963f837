import BlockQuery.Proofs.Expr.Types
import BlockQuery.Proofs.Row.Preorder
import BlockQuery.Proofs.RowSource.Yield

/-!
# Sorted rows

Sort specs order the values of the sort columns lexicographically.  On rows that keep to the types
of these columns the comparison of rows is this order, which tells apart all values that differ.
What is sorted is then ascending, and rows with the same values in the sort columns are in the
order in which they came.
-/

namespace BlockQuery

/-! ## The order that specs mean -/

/-- Whether a spec puts one value before another.  Nulls are on their side in either direction. -/
inductive SortSpec.Precedes (spec : SortSpec) : Datum → Datum → Prop
  | null_first {d : Datum} (hside : spec.nullsFirst = true) (hd : d ≠ .null) :
      spec.Precedes .null d
  | null_last {d : Datum} (hside : spec.nullsFirst = false) (hd : d ≠ .null) :
      spec.Precedes d .null
  | up {x y : Datum} (hdirection : spec.ascending = true) (hx : x ≠ .null) (hy : y ≠ .null)
      (hlt : x.totalCompare y = .lt) : spec.Precedes x y
  | down {x y : Datum} (hdirection : spec.ascending = false) (hx : x ≠ .null) (hy : y ≠ .null)
      (hlt : y.totalCompare x = .lt) : spec.Precedes x y

/-- The lexicographic order of lists of values, one for each spec. -/
inductive SortSpec.Before : List SortSpec → List Datum → List Datum → Prop
  | here {spec : SortSpec} {specs : List SortSpec} {x y : Datum} {xs ys : List Datum}
      (h : spec.Precedes x y) : Before (spec :: specs) (x :: xs) (y :: ys)
  | later {spec : SortSpec} {specs : List SortSpec} {x : Datum} {xs ys : List Datum}
      (h : Before specs xs ys) : Before (spec :: specs) (x :: xs) (x :: ys)

namespace SortSpec

variable {spec : SortSpec} {x y d : Datum}

theorem null_precedes_iff : spec.Precedes .null d ↔ spec.nullsFirst = true ∧ d ≠ .null := by
  constructor
  · rintro (⟨hside, hd⟩ | ⟨-, hd⟩ | ⟨-, hd, -⟩ | ⟨-, hd, -⟩)
    · exact ⟨hside, hd⟩
    all_goals exact absurd rfl hd
  · rintro ⟨hside, hd⟩
    exact .null_first hside hd

theorem precedes_null_iff : spec.Precedes d .null ↔ spec.nullsFirst = false ∧ d ≠ .null := by
  constructor
  · rintro (⟨-, hd⟩ | ⟨hside, hd⟩ | ⟨-, -, hd, -⟩ | ⟨-, -, hd, -⟩)
    case null_last => exact ⟨hside, hd⟩
    all_goals exact absurd rfl hd
  · rintro ⟨hside, hd⟩
    exact .null_last hside hd

theorem precedes_iff (hx : x ≠ .null) (hy : y ≠ .null) : spec.Precedes x y ↔
    (if spec.ascending then x.totalCompare y else (x.totalCompare y).swap) = .lt := by
  cases hdirection : spec.ascending with
  | true =>
    constructor
    · rintro (⟨-, -⟩ | ⟨-, -⟩ | ⟨-, -, -, hlt⟩ | ⟨hdown, -⟩)
      case up => exact hlt
      all_goals simp_all
    · exact .up hdirection hx hy
  | false =>
    rw [← Datum.totalCompare_swap x y]
    constructor
    · rintro (⟨-, -⟩ | ⟨-, -⟩ | ⟨hup, -⟩ | ⟨-, -, -, hlt⟩)
      case down => exact hlt
      all_goals simp_all
    · exact .down hdirection hx hy

end SortSpec

/-! ## Keys -/

namespace SortKey

variable {key : SortKey} {spec : SortSpec} {schema : Schema} {a b : Row}

/-- What a key reads from a row is null or there. -/
theorem value?_cases (key : SortKey) (row : Row) :
    key.value? row = none ∧ row[key.position]?.getD .null = .null ∨
      ∃ d, d ≠ .null ∧ key.value? row = some d ∧ row[key.position]?.getD .null = d := by
  rw [value?]
  rcases row[key.position]? with _ | d
  · simp
  · cases d <;> simp

theorem compare_eq_lt_iff (h : RowOrder.resolve schema spec = .ok key) : key.compare a b = .lt ↔
    spec.Precedes (a[key.position]?.getD .null) (b[key.position]?.getD .null) := by
  obtain ⟨i, -, rfl⟩ := Except.map_eq_ok.mp h
  rw [compare]
  rcases value?_cases ⟨i, spec.ascending, spec.nullsFirst⟩ a with ⟨ha, hx⟩ | ⟨x, hxn, ha, hx⟩ <;>
    rcases value?_cases ⟨i, spec.ascending, spec.nullsFirst⟩ b with ⟨hb, hy⟩ | ⟨y, hyn, hb, hy⟩ <;>
    rw [ha, hb, hx, hy]
  · simp [SortSpec.null_precedes_iff]
  · simp [SortSpec.null_precedes_iff, hyn]
  · simp [SortSpec.precedes_null_iff, hxn]
  · exact (SortSpec.precedes_iff hxn hyn).symm

/-- Nulls and values of one type that are equal for a key do not differ. -/
theorem compare_eq_eq_iff {t : DataType} (ha : (a[key.position]?.getD .null).Inhabits t)
    (hb : (b[key.position]?.getD .null).Inhabits t) : key.compare a b = .eq ↔
      a[key.position]?.getD .null = b[key.position]?.getD .null := by
  have hside : ¬(if key.nullsFirst then Ordering.lt else .gt) = .eq ∧
      ¬(if key.nullsFirst then Ordering.gt else .lt) = .eq := by
    cases key.nullsFirst <;> simp
  rw [compare]
  rcases key.value?_cases a with ⟨hav, hx⟩ | ⟨x, hxn, hav, hx⟩ <;>
    rcases key.value?_cases b with ⟨hbv, hy⟩ | ⟨y, hyn, hbv, hy⟩ <;>
    rw [hx] at ha <;> rw [hy] at hb <;> rw [hav, hbv, hx, hy]
  · simp
  · simp [hside.1, hyn.symm]
  · simp [hside.2, hxn]
  · have heq : x.totalCompare y = .eq ↔ x = y := by
      constructor
      · exact Datum.eq_of_totalCompare_eq (ha.resolve_left hxn) (hb.resolve_left hyn)
      · rintro rfl
        exact x.totalCompare_self
    rw [← heq]
    cases key.ascending <;> simp [Ordering.swap_eq_eq]

end SortKey

/-! ## Rows -/

/-- Whether what a row holds in each sort column is null or of the type of the column.  A row may
be too short for a column, and then holds null there. -/
def RowOrder.Fits (order : RowOrder) (schema : Schema) (row : Row) : Prop :=
  ∀ i ∈ order.positions, ∀ c, schema[i]? = some c → (row[i]?.getD .null).Inhabits c.type

/-- Whether rows are those of a list, in order, and rows that are equal in the order as they are in
the list. -/
structure RowOrder.StablySorts (order : RowOrder) (rows sorted : List Row) : Prop where
  perm : sorted.Perm rows
  ascending : sorted.Pairwise fun a b => (order.compare a b).isLE
  stable : ∀ row ∈ rows, sorted.filter (order.compare row · == .eq) =
    rows.filter (order.compare row · == .eq)

namespace RowOrder

variable {order : RowOrder} {schema : Schema} {specs : List SortSpec} {keys : List SortKey}
  {rows : List Row} {a b row : Row}

theorem compareKeys_eq_eq_iff
    (heq : ∀ key ∈ keys, key.compare a b = .eq ↔
      a[key.position]?.getD .null = b[key.position]?.getD .null) :
    compareKeys a b keys = .eq ↔
      a.select (keys.map (·.position)) = b.select (keys.map (·.position)) := by
  induction keys with
  | nil => simp [compareKeys, Row.select]
  | cons key keys ih =>
    obtain ⟨hkey, hrest⟩ := List.forall_mem_cons.mp heq
    have hselect := ih hrest
    simp only [Row.select, List.map_map] at hselect
    simp [compareKeys, Row.select, Ordering.then_eq_eq, hkey, hselect]

/-- Rows are compared lexicographically.  Induct on the specs and their keys. -/
theorem compareKeys_eq_lt_iff
    (hkeys : List.Forall₂ (fun spec key => resolve schema spec = .ok key) specs keys)
    (heq : ∀ key ∈ keys, key.compare a b = .eq ↔
      a[key.position]?.getD .null = b[key.position]?.getD .null) :
    compareKeys a b keys = .lt ↔ SortSpec.Before specs (a.select (keys.map (·.position)))
      (b.select (keys.map (·.position))) := by
  induction hkeys with
  | nil =>
    constructor
    · simp [compareKeys]
    · rintro ⟨⟩
  | @cons spec key specs keys hspec _ ih =>
    obtain ⟨hkey, hrest⟩ := List.forall_mem_cons.mp heq
    rw [compareKeys, Ordering.then_eq_lt, SortKey.compare_eq_lt_iff hspec, hkey, ih hrest]
    constructor
    · rintro (hfirst | ⟨hsame, hlater⟩)
      · exact .here hfirst
      · simp only [Row.select, List.map_cons, hsame]
        exact .later hlater
    · intro h
      simp only [Row.select, List.map_cons] at h
      generalize a[key.position]?.getD .null = x, b[key.position]?.getD .null = y at h ⊢
      cases h with
      | here hfirst => exact .inl hfirst
      | later hlater => exact .inr ⟨rfl, hlater⟩

theorem exists_types (h : ofSpecs schema specs = .ok order) : ∃ types : ℕ → DataType,
    ∀ row, order.Fits schema row → ∀ key ∈ order.keys,
      (row[key.position]?.getD .null).Inhabits (types key.position) := by
  have hkeys := Except.forall₂_mapM (mapM_resolve_of_ofSpecs h)
  refine ⟨fun i => (schema[i]?.map Column.type).getD .bool, fun row hrow key hkey => ?_⟩
  obtain ⟨spec, -, hspec⟩ := exists_of_forall₂ hkeys.flip key hkey
  obtain ⟨i, hfind, rfl⟩ := Except.map_eq_ok.mp hspec
  obtain ⟨c, hc, -⟩ := Schema.exists_column_of_find hfind
  simpa [hc] using hrow i (List.mem_map_of_mem hkey) c hc

/-- Rows that keep to the types of the sort columns are compared as the specs say. -/
theorem compare_spec (h : ofSpecs schema specs = .ok order) (ha : order.Fits schema a)
    (hb : order.Fits schema b) :
    (order.compare a b = .lt ↔
        SortSpec.Before specs (a.select order.positions) (b.select order.positions)) ∧
      (order.compare a b = .eq ↔ a.select order.positions = b.select order.positions) := by
  obtain ⟨types, htypes⟩ := exists_types h
  have heq : ∀ key ∈ order.keys, key.compare a b = .eq ↔
      a[key.position]?.getD .null = b[key.position]?.getD .null := by
    intro key hkey
    exact SortKey.compare_eq_eq_iff (htypes a ha key hkey) (htypes b hb key hkey)
  have hkeys := Except.forall₂_mapM (mapM_resolve_of_ofSpecs h)
  exact ⟨compareKeys_eq_lt_iff hkeys heq, compareKeys_eq_eq_iff heq⟩

theorem Typed.of_inhabits {types : ℕ → DataType} (h : ∀ key ∈ order.keys,
    (row[key.position]?.getD .null).Inhabits (types key.position)) : order.Typed types row := by
  intro key hkey d hd
  have hvalue := h key hkey
  rcases key.value?_cases row with ⟨hnone, -⟩ | ⟨x, hx, hsome, hat⟩
  · simp [hnone] at hd
  · obtain rfl : x = d := by simpa [hsome] using hd
    rw [hat] at hvalue
    exact Datum.comparesAs_of_type (hvalue.resolve_left hx)

/-- Sorting is stable.  The rows are sorted as by the order of the types, which is transitive. -/
theorem stablySorts_sort (h : ofSpecs schema specs = .ok order)
    (hrows : ∀ row ∈ rows, order.Fits schema row) : order.StablySorts rows (order.sort rows) := by
  obtain ⟨types, htypes⟩ := exists_types h
  have htyped : ∀ row ∈ rows, order.Typed types row :=
    fun row hrow => Typed.of_inhabits (htypes row (hrows row hrow))
  have hagree : ∀ a ∈ rows, ∀ b ∈ rows, order.compare a b = compareKeysAs types order.keys a b :=
    fun a ha b hb => compare_eq (htyped a ha) (htyped b hb)
  have htrans := transCmp_compareKeysAs types order.keys
  have hsame : order.sort rows =
      rows.mergeSort fun a b => (compareKeysAs types order.keys a b).isLE := mergeSort_congr hagree
  have hperm : (order.sort rows).Perm rows := List.mergeSort_perm _ _
  refine ⟨hperm, ?_, fun row hrow => ?_⟩
  · have hascending := pairwise_mergeSort htrans rows
    rw [← hsame] at hascending
    apply hascending.imp_of_mem
    intro a b ha hb hle
    rwa [hagree a (hperm.mem_iff.mp ha) b (hperm.mem_iff.mp hb)]
  · have hequal : ∀ {sorted : List Row}, sorted.Perm rows →
        sorted.filter (order.compare row · == .eq) =
          sorted.filter (compareKeysAs types order.keys row · == .eq) := by
      intro sorted hsorted
      apply List.filter_congr
      intro other hother
      rw [hagree row hrow other (hsorted.mem_iff.mp hother)]
    rw [hequal hperm, hequal (List.Perm.refl rows), hsame]
    apply filter_mergeSort htrans
    intro a b ha hb
    have hra := htrans.eq_symm (eq_of_beq ha)
    rw [htrans.congr_left hra, eq_of_beq hb]
    rfl

theorem StablySorts.sort_eq {sorted : List Row} (h : order.StablySorts rows sorted) :
    order.sort sorted = sorted := List.mergeSort_of_pairwise h.ascending

end RowOrder

/-! ## Sort sources -/

namespace RowSource

variable {child : RowSource} {schema : Schema} {specs : List SortSpec} {order : RowOrder}
  {rows : List Row}

/-- A source of rows that keep to the types of the sort columns is sorted stably, by the
lexicographic order of these columns, and what is sorted stays as it is under another sort. -/
theorem drains_to_sorted (horder : RowOrder.ofSpecs schema specs = .ok order)
    (hchild : (child.rows false).1 = .ok rows) (hrows : ∀ row ∈ rows, order.Fits schema row) :
    ((child.sort order).rows false).1 = .ok (order.sort rows) ∧
      order.StablySorts rows (order.sort rows) ∧
      (∀ a ∈ rows, ∀ b ∈ rows,
        (order.compare a b = .lt ↔
          SortSpec.Before specs (a.select order.positions) (b.select order.positions)) ∧
        (order.compare a b = .eq ↔ a.select order.positions = b.select order.positions)) ∧
      ∀ other : RowSource, (other.rows false).1 = .ok (order.sort rows) →
        ((other.sort order).rows false).1 = .ok (order.sort rows) := by
  have hsorts := RowOrder.stablySorts_sort horder hrows
  have hdrains : ∀ (src : RowSource) (rows : List Row), (src.rows false).1 = .ok rows →
      ((src.sort order).rows false).1 = .ok (order.sort rows) := by
    intro src rows hsrc
    rw [rows_ok_iff] at hsrc ⊢
    simp [yield?_sort, hsrc]
  refine ⟨hdrains child rows hchild, hsorts, fun a ha b hb => ?_, fun other hother => ?_⟩
  · exact RowOrder.compare_spec horder (hrows a ha) (hrows b hb)
  · simpa [hsorts.sort_eq] using hdrains other _ hother

/-- Doubles in descending order after nulls, the NaN first and the negative zero last.  A row that
is too short for the second column comes after the two that are equal. -/
theorem drains_to_sorted_doubles :
    (((values [[.float8 ⟨0x8000000000000000⟩, .int4 1], [.float8 ⟨0⟩],
      [.float8 ⟨0⟩, .int4 2, .text "a"], [.null, .int4 2], [.float8 ⟨0x7ff8000000000000⟩, .null],
      [.float8 ⟨0⟩, .int4 2, .text "b"]]).sort
        ⟨[⟨0, false, true⟩, ⟨1, true, false⟩], [⟨"k", false, true⟩, ⟨"n", true, false⟩]⟩).rows
          false).1 =
      .ok [[.null, .int4 2], [.float8 ⟨0x7ff8000000000000⟩, .null],
        [.float8 ⟨0⟩, .int4 2, .text "a"], [.float8 ⟨0⟩, .int4 2, .text "b"], [.float8 ⟨0⟩],
        [.float8 ⟨0x8000000000000000⟩, .int4 1]] := by
  let rows : List Row := [[.float8 ⟨0x8000000000000000⟩, .int4 1], [.float8 ⟨0⟩],
    [.float8 ⟨0⟩, .int4 2, .text "a"], [.null, .int4 2], [.float8 ⟨0x7ff8000000000000⟩, .null],
    [.float8 ⟨0⟩, .int4 2, .text "b"]]
  let specs : List SortSpec := [⟨"k", false, true⟩, ⟨"n", true, false⟩]
  let order : RowOrder := ⟨[⟨0, false, true⟩, ⟨1, true, false⟩], specs⟩
  have horder : RowOrder.ofSpecs [⟨"k", .float8⟩, ⟨"n", .int4⟩, ⟨"tag", .text⟩] specs = .ok order := by
    cbv
  have hrows : ∀ row ∈ rows, order.Fits [⟨"k", .float8⟩, ⟨"n", .int4⟩, ⟨"tag", .text⟩] row := by
    simp [rows, order, RowOrder.Fits, RowOrder.positions, Datum.Inhabits, Datum.type?]
  have hsorted := (drains_to_sorted horder (rows_ok_iff.mpr (yield?_values rows)) hrows).1
  have hsort : order.sort rows = [[.null, .int4 2], [.float8 ⟨0x7ff8000000000000⟩, .null],
      [.float8 ⟨0⟩, .int4 2, .text "a"], [.float8 ⟨0⟩, .int4 2, .text "b"], [.float8 ⟨0⟩],
      [.float8 ⟨0x8000000000000000⟩, .int4 1]] := by
    cbv
  rwa [hsort] at hsorted

end RowSource

end BlockQuery
