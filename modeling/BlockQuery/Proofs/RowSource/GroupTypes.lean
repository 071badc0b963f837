import BlockQuery.Plan.Builder
import BlockQuery.Proofs.Expr.Types
import BlockQuery.Proofs.RowSource.Reachable

/-!
# Types of groups

An accumulator that starts for an aggregate of some type makes a value of this
type, whatever it takes in of its argument.  So the rows of groups conform to
the columns of the keys and of the aggregates.
-/

namespace BlockQuery

namespace Accumulator

/-- Whether what an accumulator makes of values of one type is of another.  The least and the
greatest value are values of the argument. -/
def Makes (argument type : DataType) : Accumulator → Prop
  | count _ | integerSum _ => type = .int8
  | floatSum _ | average .. => type = .float8
  | least value | greatest value => type = argument ∧ ∀ d, value = some d → d.type? = some argument

variable {argument type : DataType} {acc next : Accumulator}

theorem makes_ofFunction {function : AggregateFunction}
    (h : function.resultType (some argument) = .ok type) :
    (ofFunction (type == .float8) function).Makes argument type := by
  have hnone : ∀ d, (none : Option Datum) = some d → d.type? = some argument :=
    fun _ hd => by cases hd
  cases function with
  | count =>
    cases h
    rfl
  | min | max =>
    cases h
    exact ⟨rfl, hnone⟩
  | sum =>
    cases argument <;> cases h
    all_goals rfl
  | avg =>
    cases argument <;> cases h
    all_goals rfl

/-- Without an argument rows are counted. -/
theorem makes_ofFunction_of_none {function : AggregateFunction}
    (h : function.resultType none = .ok type) :
    (ofFunction (type == .float8) function).Makes argument type := by
  cases function <;> cases h
  rfl

theorem Makes.add (h : acc.Makes argument type) {value : Datum}
    (hvalue : value.type? = some argument) (hadd : acc.add value = .ok next) :
    next.Makes argument type := by
  have hsome : ∀ d, some value = some d → d.type? = some argument := by
    rintro d ⟨⟩
    exact hvalue
  revert hadd
  fun_cases Accumulator.add value acc with
  | case1 | case3 | case6 | case12 =>
    rintro ⟨⟩
    exact h
  | case2 | case4 | case5 | case11 => rintro ⟨⟩
  | case7 | case9 =>
    rintro ⟨⟩
    exact ⟨h.1, hsome⟩
  | case8 | case10 =>
    rintro ⟨⟩
    refine ⟨h.1, ?_⟩
    split
    · exact hsome
    · exact h.2

theorem Makes.update (h : acc.Makes argument type) {value : Option Datum}
    (hvalue : ∀ d, value = some d → d.Inhabits argument) (hupdate : acc.update value = .ok next) :
    next.Makes argument type := by
  revert hupdate
  fun_cases Accumulator.update value acc with
  | case1 | case3 | case4 =>
    rintro ⟨⟩
    exact h
  | case2 _ d hsome => exact h.add ((hvalue d rfl).resolve_left hsome)

theorem Makes.inhabits_result (h : acc.Makes argument type) : acc.result.Inhabits type := by
  cases acc with
  | count n =>
    cases h
    exact Or.inr rfl
  | integerSum total | floatSum total =>
    cases h
    cases total with
    | none => exact Or.inl rfl
    | some sum => exact Or.inr rfl
  | least value | greatest value =>
    obtain ⟨rfl, hvalue⟩ := h
    cases value with
    | none => exact Or.inl rfl
    | some d => exact Or.inr (hvalue d rfl)
  | average total n =>
    cases h
    rw [result]
    split
    · exact Or.inl rfl
    · exact Or.inr rfl

end Accumulator

/-- Whether an accumulator makes a value of a type of the argument that an aggregate has in rows
of a schema. -/
def BoundAggregate.Tracks (a : BoundAggregate) (schema : Schema) (type : DataType)
    (acc : Accumulator) : Prop :=
  ∃ argument, acc.Makes argument type ∧ ∀ e, a.argument = some e → e.Keeps schema argument

section Groups

variable {schema keyColumns : Schema} {columns : List (BoundAggregate × Column)} {row : Row}

theorem BoundAggregate.Tracks.feed {a : BoundAggregate} {type : DataType} {acc next : Accumulator}
    (h : a.Tracks schema type acc) (hrow : row.Conforms schema)
    (hfeed : a.feed row acc = .ok next) : a.Tracks schema type next := by
  obtain ⟨argument, hmakes, hargument⟩ := h
  refine ⟨argument, ?_, hargument⟩
  unfold BoundAggregate.feed at hfeed
  split at hfeed
  next => exact hmakes.update (fun _ hd => by cases hd) hfeed
  next e he =>
    split at hfeed
    next => cases hfeed
    next value heval =>
      refine hmakes.update (fun d hd => ?_) hfeed
      cases hd
      exact hargument e he row hrow value heval

/-- The accumulators of a group keep to the columns of the aggregates. -/
def Accumulate (schema : Schema) (columns : List (BoundAggregate × Column))
    (accs : List Accumulator) : Prop :=
  List.Forall₂ (fun c acc => c.1.Tracks schema c.2.type acc) columns accs

theorem Accumulate.feedAll {accs next : List Accumulator} (h : Accumulate schema columns accs)
    (hrow : row.Conforms schema)
    (hfeed : BoundAggregate.feedAll row (columns.map Prod.fst) accs = .ok next) :
    Accumulate schema columns next := by
  induction h generalizing next with
  | nil =>
    cases hfeed
    exact List.Forall₂.nil
  | cons hfirst _ ih =>
    obtain ⟨acc, hacc, hfeed⟩ := Except.bind_eq_ok.mp hfeed
    obtain ⟨rest, hrest, hfeed⟩ := Except.bind_eq_ok.mp hfeed
    cases hfeed
    exact List.Forall₂.cons (hfirst.feed hrow hacc) (ih hrest)

theorem Accumulate.conforms_results {accs : List Accumulator} (h : Accumulate schema columns accs) :
    Row.Conforms (accs.map Accumulator.result) (columns.map Prod.snd) := by
  induction h with
  | nil => exact List.Forall₂.nil
  | cons hfirst _ ih =>
    obtain ⟨argument, hmakes, -⟩ := hfirst
    exact List.Forall₂.cons hmakes.inhabits_result ih

namespace Group

/-- Whether the row of a group will conform to the columns of its keys and aggregates. -/
structure Fits (schema keyColumns : Schema) (columns : List (BoundAggregate × Column))
    (g : Group) : Prop where
  key : g.key.Conforms keyColumns
  accumulators : Accumulate schema columns g.accumulators

variable {g next : Group} {gs more : List Group} {key : Row} {tag : Bytes}

theorem Fits.conforms_result (h : g.Fits schema keyColumns columns) :
    g.result.Conforms (keyColumns ++ columns.map Prod.snd) :=
  h.key.append h.accumulators.conforms_results

theorem Fits.feed (h : g.Fits schema keyColumns columns) (hrow : row.Conforms schema)
    (hfeed : g.feed (columns.map Prod.fst) row = .ok next) :
    next.Fits schema keyColumns columns := by
  obtain ⟨accs, haccs, rfl⟩ := Except.map_eq_ok.mp hfeed
  exact ⟨h.key, h.accumulators.feedAll hrow haccs⟩

theorem fits_fresh
    (hfresh : Accumulate schema columns ((columns.map Prod.fst).map BoundAggregate.fresh))
    (hkey : key.Conforms keyColumns) :
    (fresh (columns.map Prod.fst) key).Fits schema keyColumns columns := ⟨hkey, hfresh⟩

theorem fits_absorb
    (hfresh : Accumulate schema columns ((columns.map Prod.fst).map BoundAggregate.fresh))
    (hrow : row.Conforms schema) (hkey : key.Conforms keyColumns)
    (hgs : ∀ g ∈ gs, g.Fits schema keyColumns columns)
    (h : absorb (columns.map Prod.fst) row key tag gs = .ok more) :
    ∀ g ∈ more, g.Fits schema keyColumns columns := by
  induction gs generalizing more with
  | nil =>
    obtain ⟨g, hfeed, rfl⟩ := Except.map_eq_ok.mp h
    exact List.forall_mem_singleton.mpr ((fits_fresh hfresh hkey).feed hrow hfeed)
  | cons g gs ih =>
    obtain ⟨hg, hrest⟩ := List.forall_mem_cons.mp hgs
    rw [absorb] at h
    split at h
    · obtain ⟨g', hfeed, rfl⟩ := Except.map_eq_ok.mp h
      exact List.forall_mem_cons.mpr ⟨hg.feed hrow hfeed, hrest⟩
    · obtain ⟨rest, habsorb, rfl⟩ := Except.map_eq_ok.mp h
      exact List.forall_mem_cons.mpr ⟨hg, ih hrest habsorb⟩

end Group

/-- Whether the columns are those at the given positions. -/
def Schema.At (schema : Schema) (positions : List ℕ) (columns : Schema) : Prop :=
  List.Forall₂ (fun i c => schema[i]? = some c) positions columns

theorem Row.Conforms.select {positions : List ℕ} (h : row.Conforms schema)
    (hpositions : schema.At positions keyColumns) : (row.select positions).Conforms keyColumns := by
  induction hpositions with
  | nil => exact List.Forall₂.nil
  | @cons i c _ _ hc _ ih =>
    refine List.Forall₂.cons ?_ ih
    change (row[i]?.getD .null).Inhabits c.type
    cases hd : row[i]? with
    | none => exact Or.inl rfl
    | some d =>
      obtain ⟨c', hc', hinhabits⟩ := h.at hd
      rw [hc] at hc'
      cases hc'
      exact hinhabits

namespace RowSource

variable {child : RowSource} {keys : List ℕ} {others : Schema} {aggregates : List BoundAggregate}

theorem conforms_groupRows (hkeys : schema.At keys keyColumns)
    (hfresh : Accumulate schema columns ((columns.map Prod.fst).map BoundAggregate.fresh))
    {gs : List Group} (hgs : ∀ g ∈ gs, g.Fits schema keyColumns columns) :
    ∀ row ∈ groupRows keys (columns.map Prod.fst) gs,
      row.Conforms (keyColumns ++ columns.map Prod.snd) := by
  rw [groupRows]
  split
  next hempty =>
    rw [Bool.and_eq_true, List.isEmpty_iff, List.isEmpty_iff] at hempty
    obtain ⟨-, rfl⟩ := hempty
    cases hkeys
    exact List.forall_mem_singleton.mpr (Group.fits_fresh hfresh .nil).conforms_result
  next =>
    intro row hrow
    obtain ⟨g, hg, rfl⟩ := List.mem_map.mp hrow
    exact (hgs g hg).conforms_result

/-- The groups of rows that conform to a schema conform to the columns of the keys and of the
aggregates. -/
theorem YieldsOnly.conforms_aggregate (h : child.YieldsOnly (·.Conforms schema))
    (hkeys : schema.At keys keyColumns)
    (haggregates : List.Forall₂ (fun a c => a.Tracks schema c.type a.fresh) aggregates others) :
    (RowSource.aggregate keys aggregates child).YieldsOnly (·.Conforms (keyColumns ++ others)) := by
  obtain ⟨columns, rfl, rfl⟩ : ∃ columns : List (BoundAggregate × Column),
      columns.map Prod.fst = aggregates ∧ columns.map Prod.snd = others := by
    have hlength := haggregates.length_eq
    exact ⟨aggregates.zip others, List.map_fst_zip hlength.le, List.map_snd_zip hlength.ge⟩
  have hfresh : Accumulate schema columns ((columns.map Prod.fst).map BoundAggregate.fresh) := by
    rw [Accumulate, List.map_map, List.forall₂_map_right_iff, List.forall₂_same]
    rw [List.forall₂_map_left_iff, List.forall₂_map_right_iff, List.forall₂_same] at haggregates
    exact haggregates
  refine h.aggregate (J := fun gs => ∀ g ∈ gs, g.Fits schema keyColumns columns) ?_ ?_ ?_
  · exact fun _ hg => absurd hg List.not_mem_nil
  · intro row gs more hrow hgs hgrouped
    exact Group.fits_absorb hfresh hrow (hrow.select hkeys) hgs (Except.mapError_eq_ok.mp hgrouped)
  · exact fun gs hgs => conforms_groupRows hkeys hfresh hgs

end RowSource

end Groups

end BlockQuery
