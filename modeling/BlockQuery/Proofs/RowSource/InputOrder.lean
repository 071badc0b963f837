import BlockQuery.Proofs.Row.Preorder
import BlockQuery.Proofs.RowSource.SumOrder

/-!
# Aggregates of integers and the order of the input

Counts, least and greatest values and sums of a column of integers do not depend on the order in
which the rows come, as long as the rows can be taken in.  Only a sum can refuse them, and whether
it does depends on the order: all sums on the way are held in 64 bits, not only the last one.
-/

namespace BlockQuery

/-- Whether a column of a schema has integers. -/
def Schema.HasIntegers (schema : Schema) (i : ℕ) : Prop :=
  ∃ c, schema[i]? = some c ∧ (c.type = .int4 ∨ c.type = .int8)

namespace BoundAggregate

/-- Whether an aggregate counts rows, or counts, compares or adds the integers of a column. -/
structure OfColumn (a : BoundAggregate) (i : ℕ) : Prop where
  argument : a.argument = none ∧ a.function = .count ∨ ∃ name, a.argument = some (.column i name)
  noAverage : a.function ≠ .avg
  integers : a.function = .sum → a.floatSum = false

section Column

variable {a : BoundAggregate} {schema : Schema} {type : DataType} {i : ℕ} {rows other : List Row}
  {row : Row} {d d' : Datum}

theorem OfColumn.argument_eq {e : BoundExpr} (h : a.OfColumn i) (he : a.argument = some e) :
    ∃ name, e = .column i name := by
  rcases h.argument with ⟨hnone, -⟩ | ⟨name, hsome⟩
  · cases hnone.symm.trans he
  · cases hsome.symm.trans he
    exact ⟨name, rfl⟩

theorem OfColumn.admits (h : a.OfColumn i) (hschema : schema.HasIntegers i) :
    ∃ type, a.Admits schema type := by
  obtain ⟨c, hc, htype⟩ := hschema
  refine ⟨c.type, fun e he row hrow d hd => ?_, fun hnone => ?_, fun hsum => ?_, fun havg => ?_⟩
  · obtain ⟨name, rfl⟩ := h.argument_eq he
    rw [BoundExpr.eval] at hd
    split at hd
    next hvalue =>
      cases hd
      obtain ⟨c', hc', hinhabits⟩ := hrow.at hvalue
      cases hc.symm.trans hc'
      exact hinhabits
    next => cases hd
  · rcases h.argument with ⟨-, hcount⟩ | ⟨name, hsome⟩
    · exact hcount
    · cases hnone.symm.trans hsome
  · rwa [h.integers hsum, if_neg Bool.false_ne_true]
  · exact absurd havg h.noAverage

/-- A column that a schema has can be evaluated on its rows. -/
theorem OfColumn.evaluates {e : BoundExpr} (h : a.OfColumn i) (hschema : schema.HasIntegers i)
    (hrow : row.Conforms schema) (he : a.argument = some e) : ∃ d, e.eval row = .ok d := by
  obtain ⟨name, rfl⟩ := h.argument_eq he
  obtain ⟨c, hc, -⟩ := hschema
  have hlt : i < row.length := hrow.length_eq ▸ (List.getElem?_eq_some_iff.mp hc).1
  refine ⟨row[i], ?_⟩
  rw [BoundExpr.eval, List.getElem?_eq_getElem hlt]

theorem OfColumn.integers_values (h : a.OfColumn i) (hsum : a.function = .sum) (rows : List Row) :
    Datum.integers (a.values rows) = columnIntegers i rows := by
  rcases h.argument with ⟨-, hcount⟩ | ⟨name, hsome⟩
  · cases hcount.symm.trans hsum
  · rw [Datum.integers, values, columnIntegers, List.filterMap_filterMap]
    refine List.filterMap_congr fun row _ => ?_
    rw [value?, hsome, Option.bind_some, BoundExpr.eval, Row.integer?]
    rcases row[i]? with _ | d
    · rfl
    · cases d <;> rfl

/-- Apart from sums of doubles and averages, what an aggregate makes of rows is so in any order. -/
theorem OfColumn.yields_of_perm (h : a.OfColumn i) (hyields : a.Yields rows d)
    (hperm : rows.Perm other) : a.Yields other d := by
  have hvalues : (a.values rows).Perm (a.values other) := hperm.filterMap _
  have hnil : a.values rows = [] ↔ a.values other = [] := by
    rw [← List.length_eq_zero_iff, hvalues.length_eq, List.length_eq_zero_iff]
  cases hyields with
  | count hcount =>
    have hcounted : a.counted rows = a.counted other := by
      rw [counted, counted]
      cases a.argument with
      | none => exact hperm.length_eq
      | some e => exact hvalues.length_eq
    rw [hcounted]
    exact .count hcount
  | null hcount hnone => exact .null hcount (hnil.mp hnone)
  | integerSum n hsum hsome hn =>
    refine .integerSum n hsum (mt hnil.mpr hsome) (hn.trans ?_)
    exact (hvalues.filterMap _).sum_eq
  | floatSum hsum hfloat => cases (h.integers hsum).symm.trans hfloat
  | least d hmin hmem hall =>
    exact .least d hmin (hvalues.mem_iff.mp hmem) fun v hv => hall v (hvalues.mem_iff.mpr hv)
  | greatest d hmax hmem hall =>
    exact .greatest d hmax (hvalues.mem_iff.mp hmem) fun v hv => hall v (hvalues.mem_iff.mpr hv)
  | average havg => exact absurd havg h.noAverage

/-- Rows have only one aggregate: values between which there is no order do not differ. -/
theorem Yields.unique (hadmits : a.Admits schema type) (hrows : ∀ row ∈ rows, row.Conforms schema)
    (h : a.Yields rows d) (h' : a.Yields rows d') : d = d' := by
  have htypes := hadmits.type_of_mem_values hrows
  have hantisymm : ∀ x ∈ a.values rows, ∀ y ∈ a.values rows, (x.totalCompare y).isLE →
      (y.totalCompare x).isLE → x = y := by
    intro x hx y hy hxy hyx
    refine Datum.eq_of_totalCompare_eq (htypes x hx) (htypes y hy) ?_
    rw [x.totalCompare_swap y] at hyx
    revert hxy hyx
    cases x.totalCompare y <;> decide
  cases h <;> cases h'
  case count.count | null.null | floatSum.floatSum | average.average => rfl
  case integerSum.integerSum m _ _ hm n _ _ hn =>
    exact congrArg Datum.int8 (Int64.toInt_inj.mp (hm.trans hn.symm))
  case least.least hmem hall _ hmem' hall' =>
    exact hantisymm _ hmem _ hmem' (hall _ hmem') (hall' _ hmem)
  case greatest.greatest hmem hall _ hmem' hall' =>
    exact hantisymm _ hmem _ hmem' (hall' _ hmem) (hall _ hmem')
  -- the others would be of two functions, or of values where there are none
  all_goals simp_all [SumsIntegers]

end Column

end BoundAggregate

namespace RowSource

/-- Whether a source yields the given rows in some order. -/
def YieldsInSomeOrder (src : RowSource) (rows : List Row) : Prop :=
  ∃ other, (src.rows false).1 = .ok other ∧ other.Perm rows

/-- A row of a grouping as its stored key and its aggregates. -/
def keyed (keys : List ℕ) (row : Row) : Bytes × Row :=
  (Row.encode (row.take keys.length), row.drop keys.length)

section Leaders

variable {keys : List ℕ} {rows other : List Row}

theorem pairwise_leaders (keys : List ℕ) (rows : List Row) :
    (leaders keys rows).Pairwise fun a b => storedKey keys a ≠ storedKey keys b := by
  rw [leaders]
  split
  · exact List.pairwise_singleton _ _
  · exact pairwise_firsts _ rows

/-- In another order of the rows there are groups with the same keys. -/
theorem exists_leader_of_perm (hperm : rows.Perm other) :
    ∀ leader ∈ leaders keys rows,
      ∃ leader' ∈ leaders keys other, storedKey keys leader' = storedKey keys leader := by
  intro leader hleader
  rw [leaders] at hleader ⊢
  split at hleader
  next hempty =>
    rw [if_pos ⟨List.perm_nil.mp (hempty.1 ▸ hperm.symm), hempty.2⟩]
    exact ⟨leader, hleader, rfl⟩
  next hempty =>
    rw [if_neg fun h : other = [] ∧ keys = [] => hempty ⟨List.perm_nil.mp (h.1 ▸ hperm), h.2⟩]
    exact exists_mem_firsts leader (hperm.mem_iff.mp (mem_of_mem_firsts hleader))

theorem conforms_of_perm {schema : Schema} (hconforms : ∀ row ∈ rows, row.Conforms schema)
    (hperm : other.Perm rows) : ∀ row ∈ other, row.Conforms schema :=
  fun row hrow => hconforms row (hperm.mem_iff.mp hrow)

end Leaders

section Summaries

variable {keys : List ℕ} {aggregates : List BoundAggregate} {rows other out out' : List Row}
  {members members' : List Row} {leader leader' row row' : Row} {schema : Schema} {i : ℕ}

theorem Summary.keyed_eq (h : Summary keys aggregates members leader row) :
    ∃ values, keyed keys row = (storedKey keys leader, values) ∧
      List.Forall₂ (fun a d => a.Yields members d) aggregates values := by
  obtain ⟨values, rfl, hvalues⟩ := h
  have hlength : (leader.select keys).length = keys.length := Row.length_select leader keys
  refine ⟨values, ?_, hvalues⟩
  rw [keyed, ← hlength, List.take_left, List.drop_left, storedKey]

/-- The aggregates of a group are the same in any order of its rows. -/
theorem Summary.keyed_eq_of_perm (haggregates : ∀ a ∈ aggregates, a.OfColumn i)
    (hschema : schema.HasIntegers i) (hconforms : ∀ row ∈ members, row.Conforms schema)
    (hperm : members'.Perm members) (hsame : storedKey keys leader' = storedKey keys leader)
    (h : Summary keys aggregates members leader row)
    (h' : Summary keys aggregates members' leader' row') : keyed keys row = keyed keys row' := by
  obtain ⟨values, hkeyed, hvalues⟩ := h.keyed_eq
  obtain ⟨values', hkeyed', hvalues'⟩ := h'.keyed_eq
  have hunique : Relator.RightUnique fun (a : BoundAggregate) d =>
      a.OfColumn i ∧ a.Yields members d := by
    rintro a d d' ⟨ha, hd⟩ ⟨-, hd'⟩
    obtain ⟨type, hadmits⟩ := ha.admits hschema
    exact hd.unique hadmits hconforms hd'
  have hmoved := ((List.forall₂_and_left _ _).mpr ⟨haggregates, hvalues'⟩).imp
    fun a d ⟨ha, hd⟩ => (⟨ha, ha.yields_of_perm hd hperm⟩ : a.OfColumn i ∧ a.Yields members d)
  have heq := List.right_unique_forall₂' hunique
    ((List.forall₂_and_left _ _).mpr ⟨haggregates, hvalues⟩) hmoved
  rw [hkeyed, hkeyed', heq, hsame]

theorem Summaries.nodup_keyed (h : Summaries keys aggregates rows out) :
    (out.map (keyed keys)).Nodup := by
  have hkeys : (leaders keys rows).map (storedKey keys) =
      (out.map (keyed keys)).map Prod.fst := by
    rw [← List.forall₂_eq_eq_eq, List.map_map, List.forall₂_map_left_iff,
      List.forall₂_map_right_iff]
    refine h.imp fun leader row hsummary => ?_
    obtain ⟨values, hkeyed, -⟩ := Summary.keyed_eq hsummary
    exact (congrArg Prod.fst hkeyed).symm
  refine List.Nodup.of_map Prod.fst ?_
  rw [← hkeys]
  exact List.pairwise_map.mpr (pairwise_leaders keys rows)

theorem Summaries.keyed_subset (h : Summaries keys aggregates rows out)
    (h' : Summaries keys aggregates other out') (haggregates : ∀ a ∈ aggregates, a.OfColumn i)
    (hschema : schema.HasIntegers i) (hconforms : ∀ row ∈ rows, row.Conforms schema)
    (hperm : other.Perm rows) : out.map (keyed keys) ⊆ out'.map (keyed keys) := by
  intro x hx
  obtain ⟨row, hrow, rfl⟩ := List.mem_map.mp hx
  obtain ⟨leader, hleader, hsummary⟩ := exists_of_forall₂ h.flip row hrow
  obtain ⟨leader', hleader', hsame⟩ := exists_leader_of_perm hperm.symm leader hleader
  obtain ⟨row', hrow', hsummary'⟩ := exists_of_forall₂ h' leader' hleader'
  have hgroup : (groupOf keys other leader').Perm (groupOf keys rows leader) :=
    groupOf_congr hsame ▸ groupOf_perm keys hperm leader'
  rw [Summary.keyed_eq_of_perm haggregates hschema (forall_mem_groupOf hconforms leader) hgroup
    hsame hsummary hsummary']
  exact List.mem_map_of_mem hrow'

/-- The groups of rows are the same in any order of these. -/
theorem Summaries.keyed_perm (h : Summaries keys aggregates rows out)
    (h' : Summaries keys aggregates other out') (haggregates : ∀ a ∈ aggregates, a.OfColumn i)
    (hschema : schema.HasIntegers i) (hconforms : ∀ row ∈ rows, row.Conforms schema)
    (hperm : other.Perm rows) : (out'.map (keyed keys)).Perm (out.map (keyed keys)) := by
  have hconforms' := conforms_of_perm hconforms hperm
  refine (List.perm_ext_iff_of_nodup h'.nodup_keyed h.nodup_keyed).mpr fun x => ⟨?_, ?_⟩
  · exact fun hx => h'.keyed_subset h haggregates hschema hconforms' hperm.symm hx
  · exact fun hx => h.keyed_subset h' haggregates hschema hconforms hperm hx

end Summaries

section Orders

variable {keys : List ℕ} {aggregates : List BoundAggregate} {rows : List Row} {schema : Schema}
  {i : ℕ} {child : RowSource}

/-- Whether a sum is among some aggregates, and the integers of some group do not add up in the
order of the rows. -/
def Overflows (keys : List ℕ) (aggregates : List BoundAggregate) (i : ℕ) (rows : List Row) : Prop :=
  (∃ a ∈ aggregates, a.function = .sum) ∧
    ∃ row ∈ rows, ¬AddsUp (columnIntegers i (groupOf keys rows row))

/-- A column can be evaluated on all rows, so that only a sum can refuse them. -/
theorem refused_iff (keys : List ℕ) (fault : EvalError)
    (haggregates : ∀ a ∈ aggregates, a.OfColumn i) (hschema : schema.HasIntegers i)
    (hconforms : ∀ row ∈ rows, row.Conforms schema) :
    Refused (groupOf keys rows) aggregates rows fault ↔
      fault = .sumOverflow ∧ Overflows keys aggregates i rows := by
  constructor
  · intro h
    cases h with
    | @argument a e row _ ha he hrow hfails =>
      obtain ⟨d, hd⟩ := (haggregates a ha).evaluates hschema (hconforms row hrow) he
      cases hd.symm.trans hfails
    | @overflow a row ha hsum hrow hadds =>
      rw [(haggregates a ha).integers_values hsum.1] at hadds
      exact ⟨rfl, ⟨a, ha, hsum.1⟩, row, hrow, hadds⟩
  · rintro ⟨rfl, ⟨a, ha, hsum⟩, row, hrow, hadds⟩
    rw [← (haggregates a ha).integers_values hsum] at hadds
    exact .overflow ha ⟨hsum, (haggregates a ha).integers hsum⟩ hrow hadds

/-- A grouping over a column of integers fails just if a sum cannot be held on the way. -/
theorem aggregate_error_iff (keys : List ℕ) (e : ExecError)
    (haggregates : ∀ a ∈ aggregates, a.OfColumn i) (hschema : schema.HasIntegers i)
    (hconforms : ∀ row ∈ rows, row.Conforms schema) (hrows : (child.rows false).1 = .ok rows) :
    ((aggregate keys aggregates child).rows false).1 = .error e ↔
      e = .eval .sumOverflow ∧ Overflows keys aggregates i rows := by
  have hsummaries := summaries_of_rows keys hrows
    (fun a ha => (haggregates a ha).admits hschema) hconforms
  have hrefused := fun fault => refused_iff keys fault haggregates hschema hconforms
  cases hout : ((aggregate keys aggregates child).rows false).1 with
  | error e' =>
    rw [hout] at hsummaries
    obtain ⟨fault, rfl, hfault⟩ := hsummaries
    obtain ⟨rfl, hoverflows⟩ := (hrefused fault).mp hfault
    constructor
    · intro h
      cases h
      exact ⟨rfl, hoverflows⟩
    · rintro ⟨rfl, -⟩
      rfl
  | ok out =>
    rw [hout] at hsummaries
    refine iff_of_false (fun h => by cases h) ?_
    rintro ⟨rfl, hoverflows⟩
    exact hsummaries.2 _ ((hrefused _).mpr ⟨rfl, hoverflows⟩)

theorem exists_aggregate_ok_iff (keys : List ℕ) (haggregates : ∀ a ∈ aggregates, a.OfColumn i)
    (hschema : schema.HasIntegers i) (hconforms : ∀ row ∈ rows, row.Conforms schema)
    (hrows : (child.rows false).1 = .ok rows) :
    (∃ out, ((aggregate keys aggregates child).rows false).1 = .ok out) ↔
      ¬Overflows keys aggregates i rows := by
  have herror := fun e => aggregate_error_iff keys e haggregates hschema hconforms hrows
  cases hout : ((aggregate keys aggregates child).rows false).1 with
  | ok out =>
    refine iff_of_true ⟨out, rfl⟩ fun hoverflows => ?_
    cases hout.symm.trans ((herror _).mpr ⟨rfl, hoverflows⟩)
  | error e =>
    refine iff_of_false (fun ⟨_, h⟩ => by cases h) (not_not_intro ?_)
    exact ((herror e).mp hout).2

theorem not_overflows_iff : ¬Overflows keys aggregates i rows ↔
    ((∃ a ∈ aggregates, a.function = .sum) →
      ∀ row ∈ rows, AddsUp (columnIntegers i (groupOf keys rows row))) := by
  simp only [Overflows, not_and, not_exists, not_not]

/-- The groups and their aggregates are the same in two orders in which they do not fail. -/
theorem keyed_perm_of_reordered {other : RowSource} {out out' : List Row}
    (haggregates : ∀ a ∈ aggregates, a.OfColumn i) (hschema : schema.HasIntegers i)
    (hconforms : ∀ row ∈ rows, row.Conforms schema) (hrows : (child.rows false).1 = .ok rows)
    (hother : other.YieldsInSomeOrder rows)
    (hout : ((aggregate keys aggregates child).rows false).1 = .ok out)
    (hout' : ((aggregate keys aggregates other).rows false).1 = .ok out') :
    (out'.map (keyed keys)).Perm (out.map (keyed keys)) := by
  obtain ⟨rows', hrows', hperm⟩ := hother
  have hadmits := fun a ha => (haggregates a ha).admits hschema
  have hsummaries := summaries_of_rows keys hrows hadmits hconforms
  have hsummaries' := summaries_of_rows keys hrows' hadmits (conforms_of_perm hconforms hperm)
  rw [hout] at hsummaries
  rw [hout'] at hsummaries'
  exact Summaries.keyed_perm hsummaries.1 hsummaries'.1 haggregates hschema hconforms hperm

/-- No order fails just if the sums of all groups are bounded. -/
theorem ok_in_any_order_iff (keys : List ℕ) (haggregates : ∀ a ∈ aggregates, a.OfColumn i)
    (hschema : schema.HasIntegers i) (hconforms : ∀ row ∈ rows, row.Conforms schema) :
    (∀ other : RowSource, other.YieldsInSomeOrder rows →
        ∃ out, ((aggregate keys aggregates other).rows false).1 = .ok out) ↔
      ((∃ a ∈ aggregates, a.function = .sum) →
        ∀ row ∈ rows, BoundedSums (columnIntegers i (groupOf keys rows row))) := by
  rw [← forall_perm_addsUp_iff]
  constructor
  · intro h hsum other hperm
    have hrows := rows_ok_iff.mpr (yield?_values other)
    have hok := h (values other) ⟨other, hrows, hperm⟩
    rw [exists_aggregate_ok_iff keys haggregates hschema (conforms_of_perm hconforms hperm)
      hrows] at hok
    exact not_overflows_iff.mp hok hsum
  · rintro h other ⟨rows', hrows', hperm⟩
    rw [exists_aggregate_ok_iff keys haggregates hschema (conforms_of_perm hconforms hperm) hrows']
    exact not_overflows_iff.mpr fun hsum => h hsum rows' hperm

/-- Some order does not fail just if the sums of all groups can be held. -/
theorem ok_in_some_order_iff (keys : List ℕ) (haggregates : ∀ a ∈ aggregates, a.OfColumn i)
    (hschema : schema.HasIntegers i) (hconforms : ∀ row ∈ rows, row.Conforms schema) :
    (∃ other : RowSource, other.YieldsInSomeOrder rows ∧
        ∃ out, ((aggregate keys aggregates other).rows false).1 = .ok out) ↔
      ((∃ a ∈ aggregates, a.function = .sum) →
        ∀ row ∈ rows, FitsInt8 (columnIntegers i (groupOf keys rows row)).sum) := by
  rw [← exists_perm_addsUp_iff]
  constructor
  · rintro ⟨other, ⟨rows', hrows', hperm⟩, hok⟩ hsum
    rw [exists_aggregate_ok_iff keys haggregates hschema (conforms_of_perm hconforms hperm)
      hrows'] at hok
    exact ⟨rows', hperm, not_overflows_iff.mp hok hsum⟩
  · intro h
    have hany : ∃ other : List Row, other.Perm rows ∧ ¬Overflows keys aggregates i other := by
      by_cases hsum : ∃ a ∈ aggregates, a.function = .sum
      · obtain ⟨other, hperm, hadds⟩ := h hsum
        exact ⟨other, hperm, not_overflows_iff.mpr fun _ => hadds⟩
      · exact ⟨rows, .refl rows, fun hoverflows => hsum hoverflows.1⟩
    obtain ⟨other, hperm, hno⟩ := hany
    have hrows := rows_ok_iff.mpr (yield?_values other)
    refine ⟨values other, ⟨other, hrows, hperm⟩, ?_⟩
    rwa [exists_aggregate_ok_iff keys haggregates hschema (conforms_of_perm hconforms hperm) hrows]

/-- Counts, extremes and sums of a column of integers fail only where a sum on the way cannot be
held; where they do not fail, the groups and their aggregates are the same in any order of the rows.
They fail in no order just if the positive integers of each group have a sum that can be held, and
the negative ones; and they fail in every order just if the sum of some group cannot be held. -/
theorem aggregates_in_any_order (keys : List ℕ) (haggregates : ∀ a ∈ aggregates, a.OfColumn i)
    (hschema : schema.HasIntegers i) (hconforms : ∀ row ∈ rows, row.Conforms schema)
    (hrows : (child.rows false).1 = .ok rows) :
    (∀ e, ((aggregate keys aggregates child).rows false).1 = .error e ↔
      e = .eval .sumOverflow ∧ Overflows keys aggregates i rows) ∧
    (∀ other : RowSource, other.YieldsInSomeOrder rows → ∀ out out',
      ((aggregate keys aggregates child).rows false).1 = .ok out →
      ((aggregate keys aggregates other).rows false).1 = .ok out' →
        (out'.map (keyed keys)).Perm (out.map (keyed keys))) ∧
    ((∀ other : RowSource, other.YieldsInSomeOrder rows →
        ∃ out, ((aggregate keys aggregates other).rows false).1 = .ok out) ↔
      ((∃ a ∈ aggregates, a.function = .sum) →
        ∀ row ∈ rows, BoundedSums (columnIntegers i (groupOf keys rows row)))) ∧
    ((∃ other : RowSource, other.YieldsInSomeOrder rows ∧
        ∃ out, ((aggregate keys aggregates other).rows false).1 = .ok out) ↔
      ((∃ a ∈ aggregates, a.function = .sum) →
        ∀ row ∈ rows, FitsInt8 (columnIntegers i (groupOf keys rows row)).sum)) := by
  refine ⟨fun e => ?_, fun other hother out out' hout hout' => ?_, ?_, ?_⟩
  · exact aggregate_error_iff keys e haggregates hschema hconforms hrows
  · exact keyed_perm_of_reordered haggregates hschema hconforms hrows hother hout hout'
  · exact ok_in_any_order_iff keys haggregates hschema hconforms
  · exact ok_in_some_order_iff keys haggregates hschema hconforms

end Orders

namespace NearTheLimit

/-- The greatest number, one and minus one in one group, and a null in another. -/
def overflowing : List Row :=
  [[.int4 1, .int8 0x7fffffffffffffff], [.int4 2, .null], [.int4 1, .int8 1],
    [.int4 1, .int8 (-1)]]

/-- The same rows, with minus one before one. -/
def reordered : List Row :=
  [[.int4 1, .int8 0x7fffffffffffffff], [.int4 2, .null], [.int4 1, .int8 (-1)],
    [.int4 1, .int8 1]]

def schema : Schema := [⟨"k", .int4⟩, ⟨"v", .int8⟩]

def aggregates : List BoundAggregate :=
  [⟨.count, none, false⟩, ⟨.min, some (.column 1 "v"), false⟩, ⟨.sum, some (.column 1 "v"), false⟩]

def summaries : List Row :=
  [[.int4 1, .int8 3, .int8 (-1), .int8 0x7fffffffffffffff], [.int4 2, .int8 1, .null, .null]]

theorem rows_reordered :
    ((aggregate [0] aggregates (values reordered)).rows false).1 = .ok summaries := by
  rw [rows_aggregate (rows_ok_iff.mpr (yield?_values reordered))]
  cbv

end NearTheLimit

open NearTheLimit in
/-- Whether a sum fails depends on the order of the rows, though it can be held. -/
theorem sums_of_reordered :
    reordered.Perm overflowing ∧
      (∀ row ∈ overflowing, FitsInt8 (columnIntegers 1 (groupOf [0] overflowing row)).sum) ∧
      ((aggregate [0] aggregates (values overflowing)).rows false).1 =
        .error (.eval .sumOverflow) ∧
      ((aggregate [0] aggregates (values reordered)).rows false).1 = .ok summaries := by
  refine ⟨by decide, ?_, ?_, rows_reordered⟩
  · cbv
    decide
  · rw [rows_aggregate (rows_ok_iff.mpr (yield?_values overflowing))]
    cbv

open NearTheLimit in
/-- In the order in which they do not fail, the aggregates are those of any other such order; and
there is an order in which they fail. -/
theorem aggregates_in_any_order_near_limit :
    (∀ a ∈ aggregates, a.OfColumn 1) ∧ schema.HasIntegers 1 ∧
      (∀ row ∈ reordered, row.Conforms schema) ∧
      ((values reordered).rows false).1 = .ok reordered ∧
      (∀ other : RowSource, other.YieldsInSomeOrder reordered → ∀ out,
        ((aggregate [0] aggregates other).rows false).1 = .ok out →
          (out.map (keyed [0])).Perm (summaries.map (keyed [0]))) ∧
      ¬∀ other : RowSource, other.YieldsInSomeOrder reordered →
        ∃ out, ((aggregate [0] aggregates other).rows false).1 = .ok out := by
  have haggregates : ∀ a ∈ aggregates, a.OfColumn 1 := by
    rw [aggregates, List.forall_mem_cons, List.forall_mem_cons, List.forall_mem_singleton]
    refine ⟨⟨.inl ⟨rfl, rfl⟩, ?_, fun _ => rfl⟩, ⟨.inr ⟨"v", rfl⟩, ?_, fun _ => rfl⟩,
      ⟨.inr ⟨"v", rfl⟩, ?_, fun _ => rfl⟩⟩
    all_goals exact AggregateFunction.noConfusion
  have hschema : schema.HasIntegers 1 := ⟨⟨"v", .int8⟩, rfl, .inr rfl⟩
  have hconforms : ∀ row ∈ reordered, row.Conforms schema := by
    simp [reordered, schema, Row.Conforms, Datum.Inhabits, Datum.type?]
  have hrows := rows_ok_iff.mpr (yield?_values reordered)
  obtain ⟨-, hsame, hnone, -⟩ :=
    aggregates_in_any_order [0] haggregates hschema hconforms hrows
  refine ⟨haggregates, hschema, hconforms, hrows,
    fun other hother out => hsame other hother summaries out rows_reordered, fun hall => ?_⟩
  have hbounded := hnone.mp hall ⟨⟨.sum, some (.column 1 "v"), false⟩, by decide, rfl⟩
    [.int4 1, .int8 1] (by decide)
  have hgroup : columnIntegers 1 (groupOf [0] reordered [.int4 1, .int8 1]) =
      [0x7fffffffffffffff, -1, 1] := by
    cbv
  rw [hgroup] at hbounded
  exact absurd hbounded.1 (by decide)

end RowSource

end BlockQuery
