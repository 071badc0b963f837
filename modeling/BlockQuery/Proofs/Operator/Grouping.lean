import BlockQuery.Proofs.Operator.Types
import BlockQuery.Proofs.Row.Codec
import BlockQuery.Proofs.Row.Preorder
import BlockQuery.Proofs.RowSource.Grouping

/-!
# Grouping by values

A grouping tells keys apart by the bytes that store them.  On rows with the columns of a schema
these are the same just if the keys are the same value by value, nulls being alike.  So the groups
are the classes of rows with equal keys.
-/

namespace BlockQuery

namespace Datum

/-- Whether two values are one to a grouping: both are null, or they are equal in the order of all
values. -/
def alike (a b : Datum) : Bool := (a.isNull && b.isNull) || a.totalCompare b == .eq

/-- Nulls and values of one type are alike only to themselves. -/
theorem alike_iff_eq {t : DataType} {a b : Datum} (ha : a.Inhabits t) (hb : b.Inhabits t) :
    a.alike b = true ↔ a = b := by
  constructor
  · intro h
    rcases ha with rfl | ha <;> rcases hb with rfl | hb
    · rfl
    · cases b <;> cases hb <;> cases h
    · cases a <;> cases ha <;> cases h
    · refine eq_of_totalCompare_eq ha hb ?_
      have hnull : a.isNull = false := by
        cases a <;> cases ha
        all_goals rfl
      rw [alike, hnull, Bool.false_and, Bool.false_or] at h
      exact beq_iff_eq.mp h
  · rintro rfl
    rw [alike, totalCompare_self, Bool.or_eq_true]
    exact .inr rfl

end Datum

/-- Whether two rows have one key to a grouping. -/
def Row.alikeAt (keys : List ℕ) (a b : Row) : Bool :=
  keys.all fun i => (a[i]?.getD .null).alike (b[i]?.getD .null)

section Keys

variable {schema : Schema} {keys : List ℕ} {a b : Row}

/-- The values at a place of two rows are null or of one type. -/
theorem exists_inhabits_at (ha : a.Conforms schema) (hb : b.Conforms schema) (i : ℕ) :
    ∃ t, (a[i]?.getD .null).Inhabits t ∧ (b[i]?.getD .null).Inhabits t := by
  cases hx : a[i]? with
  | none =>
    have hlength : b.length ≤ i := by
      rw [hb.length_eq, ← ha.length_eq]
      exact List.getElem?_eq_none_iff.mp hx
    rw [List.getElem?_eq_none hlength]
    exact ⟨.bool, .inl rfl, .inl rfl⟩
  | some x =>
    obtain ⟨c, hc, hx⟩ := ha.at hx
    refine ⟨c.type, hx, ?_⟩
    cases hy : b[i]? with
    | none => exact .inl rfl
    | some y =>
      obtain ⟨c', hc', hy⟩ := hb.at hy
      cases hc.symm.trans hc'
      exact hy

theorem select_eq_iff_alikeAt (ha : a.Conforms schema) (hb : b.Conforms schema) :
    a.select keys = b.select keys ↔ a.alikeAt keys b = true := by
  rw [Row.select, Row.select, List.map_inj_left, Row.alikeAt, List.all_eq_true]
  refine forall₂_congr fun i _ => ?_
  obtain ⟨t, hat, hbt⟩ := exists_inhabits_at ha hb i
  exact (Datum.alike_iff_eq hat hbt).symm

theorem storedKey_eq_iff_alikeAt (ha : a.Conforms schema) (hb : b.Conforms schema)
    (hka : ∀ d ∈ a.select keys, d.Storable) (hkb : ∀ d ∈ b.select keys, d.Storable) :
    storedKey keys a = storedKey keys b ↔ a.alikeAt keys b = true := by
  rw [← select_eq_iff_alikeAt ha hb]
  constructor
  · exact Row.eq_of_encode_eq (by rw [Row.length_select, Row.length_select]) hka hkb
  · intro h
    rw [storedKey, storedKey, h]

end Keys

namespace RowSource

/-- What is refused depends only on which rows are grouped with each one. -/
theorem Refused.congr {members others : Row → List Row} {aggregates : List BoundAggregate}
    {rows : List Row} {fault : EvalError} (heq : ∀ row ∈ rows, members row = others row)
    (h : Refused members aggregates rows fault) : Refused others aggregates rows fault := by
  cases h with
  | argument ha he hrow hfails => exact .argument ha he hrow hfails
  | overflow ha hsum hrow hadds => exact .overflow ha hsum hrow (by rwa [← heq _ hrow])

end RowSource

namespace Operator

open RowSource

section Named

variable {child : Operator} {keys : List String} {aggregates : List Aggregate} {schema : Schema}
  {positions : List ℕ} {bound : List BoundAggregate} {disk : Disk} {rows : List Row}

/-- An aggregate that has a type has an argument that its function takes. -/
theorem admits_of_boundAggregate {a : Aggregate} {b : BoundAggregate}
    (h : child.boundAggregate a = .ok b) : ∃ type, b.Admits child.schema type := by
  obtain ⟨type, htype, h⟩ := Except.bind_eq_ok.mp h
  obtain ⟨argument, hargument, h⟩ := Except.bind_eq_ok.mp h
  cases h
  rw [Except.mapError_eq_ok, Aggregate.typeIn] at htype
  cases harg : a.argument with
  | none =>
    rw [harg] at htype hargument
    cases hargument
    have hcount : a.function = .count := by
      cases hfunction : a.function <;> rw [hfunction] at htype <;> cases htype
    exact ⟨.text, fun _ he => (by cases he), fun _ => hcount,
      fun hsum => (by cases hcount.symm.trans hsum), fun havg => (by cases hcount.symm.trans havg)⟩
  | some e =>
    rw [harg] at htype hargument
    obtain ⟨t, ht, htype⟩ := Except.bind_eq_ok.mp htype
    obtain ⟨eb, heb, hargument⟩ := Except.map_eq_ok.mp hargument
    subst hargument
    refine ⟨t, fun e' he => ?_, fun hnone => (by cases hnone), fun hsum => ?_, fun havg => ?_⟩
    · cases he
      exact keeps_of_bound ht heb
    · change a.function = .sum at hsum
      rw [hsum] at htype
      cases t with
      | bool | text => cases htype
      | int4 =>
        cases htype
        exact .inl rfl
      | int8 =>
        cases htype
        exact .inr rfl
      | float8 =>
        cases htype
        rfl
    · change a.function = .avg at havg
      rw [havg] at htype
      cases t <;> cases htype
      all_goals rfl

/-- The keys of a grouping are columns, and its aggregates have types. -/
theorem of_grouping (h : child.grouping keys aggregates schema =
    .ok (.aggregate positions bound schema child)) :
    positions.length = keys.length ∧ ∀ b ∈ bound, ∃ type, b.Admits child.schema type := by
  obtain ⟨found, hfound, h⟩ := Except.bind_eq_ok.mp h
  obtain ⟨accumulated, haccumulated, h⟩ := Except.bind_eq_ok.mp h
  obtain ⟨-, h⟩ := Except.guard_eq_ok.mp h
  cases h
  have hall := Except.forall₂_of_mapM (R := fun b _ => ∃ type, b.Admits child.schema type)
    haccumulated haccumulated fun _ _ _ _ hb _ => admits_of_boundAggregate hb
  exact ⟨Except.length_mapM hfound, List.forall₂_same.mp hall⟩

/-- A grouping yields one row for each class of rows with equal keys, in the order in which these
appear: the key, and each aggregate over the rows of the class.  Without keys all rows are one class,
even if there is none.  It fails just if an argument fails on some row, or integers of some class do
not add up. -/
theorem summaries_of_grouping
    (hop : child.grouping keys aggregates schema = .ok (.aggregate positions bound schema child))
    (hrows : ((child.source disk).rows false).1 = .ok rows)
    (hconforms : ∀ row ∈ rows, row.Conforms child.schema)
    (htexts : ∀ row ∈ rows, ∀ d ∈ row.select positions, d.Storable) :
    match (((Operator.aggregate positions bound schema child).source disk).rows false).1 with
    | .ok out => List.Forall₂
        (fun leader => Summary positions bound (rows.filter (·.alikeAt positions leader)) leader)
          (if rows = [] ∧ keys = [] then [[]] else rows.eraseDupsBy (Row.alikeAt positions)) out ∧
        ∀ fault, ¬Refused (fun row => rows.filter (·.alikeAt positions row)) bound rows fault
    | .error e => ∃ fault, e = .eval fault ∧
        Refused (fun row => rows.filter (·.alikeAt positions row)) bound rows fault := by
  obtain ⟨hlength, hadmits⟩ := of_grouping hop
  have hkeys : ∀ a ∈ rows, ∀ b ∈ rows,
      decide (storedKey positions a = storedKey positions b) = a.alikeAt positions b := by
    intro a ha b hb
    rw [Bool.eq_iff_iff, decide_eq_true_iff]
    exact storedKey_eq_iff_alikeAt (hconforms a ha) (hconforms b hb) (htexts a ha) (htexts b hb)
  have hmembers : ∀ leader ∈ rows,
      groupOf positions rows leader = rows.filter (·.alikeAt positions leader) :=
    fun leader hleader => List.filter_congr fun row hrow => hkeys row hrow leader hleader
  have hleaders : leaders positions rows =
      if rows = [] ∧ keys = [] then [[]] else rows.eraseDupsBy (Row.alikeAt positions) := by
    have hnone : positions = [] ↔ keys = [] := by
      rw [← List.length_eq_zero_iff, hlength, List.length_eq_zero_iff]
    exact if_congr (and_congr_right' hnone) rfl (eraseDupsBy_congr hkeys)
  have hsummaries := summaries_of_rows positions hrows hadmits hconforms
  rw [source]
  cases hout : ((RowSource.aggregate positions bound (child.source disk)).rows false).1 with
  | error e =>
    rw [hout] at hsummaries
    obtain ⟨fault, he, hrefused⟩ := hsummaries
    exact ⟨fault, he, hrefused.congr hmembers⟩
  | ok out =>
    rw [hout] at hsummaries
    obtain ⟨hsummaries, haccepted⟩ := hsummaries
    refine ⟨?_, fun fault hrefused =>
      haccepted fault (hrefused.congr fun row hrow => (hmembers row hrow).symm)⟩
    have hall : ∀ leader ∈ leaders positions rows,
        groupOf positions rows leader = rows.filter (·.alikeAt positions leader) := by
      intro leader hleader
      by_cases hnone : rows = [] ∧ positions = []
      · rw [hnone.1]
        rfl
      · rw [leaders, if_neg hnone] at hleader
        exact hmembers leader (mem_of_mem_firsts hleader)
    rw [← hleaders]
    refine ((List.forall₂_and_left _ _).mpr ⟨hall, hsummaries⟩).imp ?_
    rintro leader row ⟨heq, hsummary⟩
    rwa [← heq]

end Named

namespace SignedZeros

/-- Two nulls, two zeros and a negative zero, each with a number. -/
def rows : List Row :=
  [[.null, .int4 1], [.float8 ⟨0⟩, .int4 2], [.null, .null], [.float8 ⟨0x8000000000000000⟩, .int4 5],
    [.float8 ⟨0⟩, .int4 7]]

def child : Operator := .values [⟨"k", .float8⟩, ⟨"v", .int4⟩] rows

def aggregates : List Aggregate :=
  [⟨.count, none, "n"⟩, ⟨.sum, some (.column "v"), "s"⟩, ⟨.min, some (.column "v"), "m"⟩]

def totals : List BoundAggregate :=
  [⟨.count, none, false⟩, ⟨.sum, some (.column 1 "v"), false⟩, ⟨.min, some (.column 1 "v"), false⟩]

def columns : Schema := [⟨"k", .float8⟩, ⟨"n", .int8⟩, ⟨"s", .int8⟩, ⟨"m", .int4⟩]

end SignedZeros

open SignedZeros in
/-- Nulls are one class and the two zeros are not; a null does not count in a sum. -/
theorem summaries_of_grouping_zeros :
    child.grouping ["k"] aggregates columns = .ok (.aggregate [0] totals columns child) ∧
      ((child.source .empty).rows false).1 = .ok SignedZeros.rows ∧
      (((Operator.aggregate [0] totals columns child).source .empty).rows false).1 =
        .ok [[.null, .int8 2, .int8 1, .int4 1], [.float8 ⟨0⟩, .int8 2, .int8 9, .int4 2],
          [.float8 ⟨0x8000000000000000⟩, .int8 1, .int8 5, .int4 5]] ∧
      List.Forall₂ (fun leader => Summary [0] totals
          (SignedZeros.rows.filter (·.alikeAt [0] leader)) leader)
        [[.null, .int4 1], [.float8 ⟨0⟩, .int4 2], [.float8 ⟨0x8000000000000000⟩, .int4 5]]
        [[.null, .int8 2, .int8 1, .int4 1], [.float8 ⟨0⟩, .int8 2, .int8 9, .int4 2],
          [.float8 ⟨0x8000000000000000⟩, .int8 1, .int8 5, .int4 5]] := by
  have hop : child.grouping ["k"] aggregates columns = .ok (.aggregate [0] totals columns child) :=
    rfl
  have hrows : ((child.source .empty).rows false).1 = .ok SignedZeros.rows :=
    rows_ok_iff.mpr (yield?_values SignedZeros.rows)
  have hout : (((Operator.aggregate [0] totals columns child).source .empty).rows false).1 =
      .ok [[.null, .int8 2, .int8 1, .int4 1], [.float8 ⟨0⟩, .int8 2, .int8 9, .int4 2],
        [.float8 ⟨0x8000000000000000⟩, .int8 1, .int8 5, .int4 5]] := by
    rw [source, rows_aggregate hrows]
    cbv
  have hconforms : ∀ row ∈ SignedZeros.rows, row.Conforms child.schema := by
    simp [SignedZeros.rows, child, Operator.schema, Row.Conforms, Datum.Inhabits, Datum.type?]
  have hsummaries := summaries_of_grouping hop hrows hconforms
    (by simp [SignedZeros.rows, Row.select, Datum.Storable])
  rw [hout] at hsummaries
  exact ⟨hop, hrows, hout, hsummaries.1⟩

end Operator

end BlockQuery
