import BlockQuery.Proofs.Row.Order
import BlockQuery.Proofs.RowSource.GroupTypes

/-!
# What accumulators make of rows

An aggregate counts rows, or takes in the values of its argument that are not null.  What it makes
of them is said of the whole list of these values; its accumulator is shown to follow this along
the rows.  It fails only where its argument does, or where a sum of integers on the way is too
large.
-/

namespace BlockQuery

/-- Whether a wide integer can hold a sum. -/
def FitsInt8 (n : ℤ) : Prop := int8Low ≤ n ∧ n ≤ int8High

instance (n : ℤ) : Decidable (FitsInt8 n) := inferInstanceAs (Decidable (_ ∧ _))

/-- Whether integers can be added one after the other, with every sum on the way held. -/
def AddsUp (ns : List ℤ) : Prop := ∀ front, front <+: ns → FitsInt8 front.sum

theorem fitsInt8_zero : FitsInt8 0 := by
  unfold FitsInt8
  decide

theorem toInt_ofInt_of_fitsInt8 {n : ℤ} (h : FitsInt8 n) : (Int64.ofInt n).toInt = n :=
  Int64.toInt_ofInt_of_le h.1 (Int.lt_of_le_of_lt h.2 (by decide))

theorem addsUp_nil : AddsUp [] := by
  intro front hfront
  rw [List.prefix_nil.mp hfront]
  exact fitsInt8_zero

theorem addsUp_concat {ns : List ℤ} {n : ℤ} :
    AddsUp (ns ++ [n]) ↔ AddsUp ns ∧ FitsInt8 (ns ++ [n]).sum := by
  constructor
  · intro h
    exact ⟨fun front hfront => h front (hfront.trans (List.prefix_append ns [n])),
      h _ List.prefix_rfl⟩
  · rintro ⟨hns, hsum⟩ front hfront
    rcases List.prefix_concat_iff.mp hfront with rfl | hfront
    · exact hsum
    · exact hns front hfront

namespace Datum

/-- The integers among some values. -/
def integers (vals : List Datum) : List ℤ := vals.filterMap toInt?

/-- The numbers among some values as doubles, added from the left. -/
def floatTotal (vals : List Datum) : Float8 := (vals.filterMap toFloat8?).foldl .add (.ofNat 0)

theorem integers_concat (vals : List Datum) {d : Datum} {n : ℤ} (h : d.toInt? = some n) :
    integers (vals ++ [d]) = integers vals ++ [n] := by
  rw [integers, List.filterMap_append, List.filterMap_cons_some h]
  rfl

theorem floatTotal_concat (vals : List Datum) {d : Datum} {x : Float8}
    (h : d.toFloat8? = some x) : floatTotal (vals ++ [d]) = (floatTotal vals).add x := by
  rw [floatTotal, List.filterMap_append, List.filterMap_cons_some h, List.foldl_append]
  rfl

theorem exists_toInt? {t : DataType} (ht : t = .int4 ∨ t = .int8) {d : Datum}
    (h : d.type? = some t) : ∃ n, d.toInt? = some n := by
  rcases ht with rfl | rfl <;> cases d <;> cases h
  all_goals exact ⟨_, rfl⟩

theorem exists_toFloat8? {t : DataType} (ht : t.isNumeric = true) {d : Datum}
    (h : d.type? = some t) : ∃ x, d.toFloat8? = some x := by
  cases t <;> cases ht <;> cases d <;> cases h
  all_goals exact ⟨_, rfl⟩

end Datum

namespace BoundAggregate

/-- The value of the argument on a row, unless it is null. -/
def value? (a : BoundAggregate) (row : Row) : Option Datum :=
  (a.argument.bind fun e => (e.eval row).toOption).filter fun d => !d.isNull

/-- The values of the argument on some rows that are not null. -/
def values (a : BoundAggregate) (rows : List Row) : List Datum := rows.filterMap a.value?

/-- The rows that count: without an argument all of them. -/
def counted (a : BoundAggregate) (rows : List Row) : ℕ :=
  match a.argument with
  | none => rows.length
  | some _ => (a.values rows).length

/-- Whether an aggregate adds integers. -/
def SumsIntegers (a : BoundAggregate) : Prop := a.function = .sum ∧ a.floatSum = false

/-- What an aggregate of some rows is. -/
inductive Yields (a : BoundAggregate) (rows : List Row) : Datum → Prop
  | count : a.function = .count → Yields a rows (.int8 (Int64.ofNat (a.counted rows)))
  | null : a.function ≠ .count → a.values rows = [] → Yields a rows .null
  | integerSum (n : Int64) : a.SumsIntegers → a.values rows ≠ [] →
    n.toInt = (Datum.integers (a.values rows)).sum → Yields a rows (.int8 n)
  | floatSum : a.function = .sum → a.floatSum = true → a.values rows ≠ [] →
    Yields a rows (.float8 (Datum.floatTotal (a.values rows)))
  | least (d : Datum) : a.function = .min → d ∈ a.values rows →
    (∀ v ∈ a.values rows, (d.totalCompare v).isLE) → Yields a rows d
  | greatest (d : Datum) : a.function = .max → d ∈ a.values rows →
    (∀ v ∈ a.values rows, (v.totalCompare d).isLE) → Yields a rows d
  | average : a.function = .avg → a.values rows ≠ [] → Yields a rows
    (.float8 ((Datum.floatTotal (a.values rows)).div (.ofNat (a.values rows).length)))

/-- Whether an aggregate has an argument of a type, on the rows of a schema, that its function
takes. -/
structure Admits (a : BoundAggregate) (schema : Schema) (type : DataType) : Prop where
  keeps : ∀ e, a.argument = some e → e.Keeps schema type
  star : a.argument = none → a.function = .count
  sum : a.function = .sum → if a.floatSum then type = .float8 else type = .int4 ∨ type = .int8
  avg : a.function = .avg → type.isNumeric = true

/-- The accumulator of an aggregate behind some rows, unless one cannot be taken in. -/
def accumulate (a : BoundAggregate) (rows : List Row) : Except EvalError Accumulator :=
  rows.foldlM (fun acc row => a.feed row acc) a.fresh

section Values

variable {a : BoundAggregate} {schema : Schema} {type : DataType} {rows : List Row} {row : Row}
  {e : BoundExpr} {d : Datum}

theorem accumulate_concat (a : BoundAggregate) (rows : List Row) (row : Row) :
    a.accumulate (rows ++ [row]) = a.accumulate rows >>= a.feed row := by
  rw [accumulate, List.foldlM_append]
  exact bind_congr fun acc => bind_pure _

/-- What was refused is refused whatever follows. -/
theorem accumulate_append_of_error (a : BoundAggregate) {fault : EvalError}
    (h : a.accumulate rows = .error fault) (more : List Row) :
    a.accumulate (rows ++ more) = .error fault := by
  rw [accumulate] at h
  rw [accumulate, List.foldlM_append, h]
  rfl

theorem values_concat (a : BoundAggregate) (rows : List Row) (row : Row) :
    a.values (rows ++ [row]) = a.values rows ++ (a.value? row).toList := by
  rw [values, List.filterMap_append]
  cases h : a.value? row with
  | none => rw [List.filterMap_cons_none h]; rfl
  | some d => rw [List.filterMap_cons_some h]; rfl

theorem value?_of_ok (harg : a.argument = some e) (heval : e.eval row = .ok d) :
    a.value? row = if d.isNull then none else some d := by
  rw [value?, harg, Option.bind_some, heval]
  cases d <;> rfl

theorem Admits.type_value? (h : a.Admits schema type) (hrow : row.Conforms schema)
    (hd : a.value? row = some d) : d.type? = some type := by
  obtain ⟨hvalue, hnull⟩ := Option.filter_eq_some_iff.mp hd
  obtain ⟨e, he, hvalue⟩ := Option.bind_eq_some_iff.mp hvalue
  have hinhabits := h.keeps e he row hrow d (Except.toOption_eq_some.mp hvalue)
  refine hinhabits.resolve_left fun hd => ?_
  rw [hd] at hnull
  cases hnull

theorem Admits.type_of_mem_values (h : a.Admits schema type)
    (hrows : ∀ row ∈ rows, row.Conforms schema) : ∀ d ∈ a.values rows, d.type? = some type := by
  intro d hd
  obtain ⟨row, hrow, hvalue⟩ := List.mem_filterMap.mp hd
  exact h.type_value? (hrows row hrow) hvalue

theorem Admits.exists_toInt? (h : a.Admits schema type) (hsum : a.SumsIntegers)
    (hd : d.type? = some type) : ∃ n, d.toInt? = some n := by
  have htype := h.sum hsum.1
  rw [hsum.2, if_neg Bool.false_ne_true] at htype
  exact Datum.exists_toInt? htype hd

theorem Admits.exists_toFloat8? (h : a.Admits schema type) (hsum : a.function = .sum)
    (hfloat : a.floatSum = true) (hd : d.type? = some type) : ∃ x, d.toFloat8? = some x := by
  have htype := h.sum hsum
  rw [if_pos hfloat] at htype
  exact Datum.exists_toFloat8? (by rw [htype]; rfl) hd

end Values

end BoundAggregate

namespace Accumulator

/-- Whether a value is one of some values and before all of them; without values there is none. -/
def Extreme (before : Datum → Datum → Prop) (vals : List Datum) : Option Datum → Prop
  | none => vals = []
  | some d => d ∈ vals ∧ ∀ v ∈ vals, before d v

/-- Whether an accumulator has made of some values what its aggregate makes of them. -/
inductive Summarises (a : BoundAggregate) (counted : ℕ) (vals : List Datum) : Accumulator → Prop
  | count : a.function = .count → Summarises a counted vals (.count counted)
  | integerSum : a.SumsIntegers → AddsUp (Datum.integers vals) → Summarises a counted vals
    (.integerSum (if vals = [] then none else some (Datum.integers vals).sum))
  | floatSum : a.function = .sum → a.floatSum = true → Summarises a counted vals
    (.floatSum (if vals = [] then none else some (Datum.floatTotal vals)))
  | least (found : Option Datum) : a.function = .min →
    Extreme (fun d v => (d.totalCompare v).isLE) vals found →
    Summarises a counted vals (.least found)
  | greatest (found : Option Datum) : a.function = .max →
    Extreme (fun d v => (v.totalCompare d).isLE) vals found →
    Summarises a counted vals (.greatest found)
  | average : a.function = .avg →
    Summarises a counted vals (.average (Datum.floatTotal vals) vals.length)

section Summaries

variable {a : BoundAggregate} {schema : Schema} {type : DataType} {counted : ℕ} {vals : List Datum}
  {acc next : Accumulator} {d : Datum} {fault : EvalError}

theorem summarises_fresh (a : BoundAggregate) : a.fresh.Summarises a 0 [] := by
  obtain ⟨function, argument, floatSum⟩ := a
  cases function with
  | count => exact .count rfl
  | sum =>
    cases floatSum with
    | true => exact .floatSum rfl rfl
    | false => exact .integerSum ⟨rfl, rfl⟩ addsUp_nil
  | min => exact .least none rfl rfl
  | max => exact .greatest none rfl rfl
  | avg => exact .average rfl

theorem Extreme.first {before : Datum → Datum → Prop} (h : Extreme before vals none)
    (hself : before d d) : Extreme before (vals ++ [d]) (some d) := by
  rw [show vals = [] from h]
  exact ⟨List.mem_singleton_self d, List.forall_mem_singleton.mpr hself⟩

/-- A value that is compared with the extreme one takes its place or leaves it. -/
theorem Extreme.concat {before : Datum → Datum → Prop} {c : Datum} {p : Prop} [Decidable p]
    (h : Extreme before vals (some c)) (hself : before d d) (hnew : p → before d c)
    (hold : ¬p → before c d) (htrans : ∀ v ∈ vals, before d c → before c v → before d v) :
    Extreme before (vals ++ [d]) (some (if p then d else c)) := by
  obtain ⟨hmem, hall⟩ := h
  by_cases hp : p
  · rw [if_pos hp]
    refine ⟨List.mem_append_right _ (List.mem_singleton_self d), ?_⟩
    rw [List.forall_mem_append, List.forall_mem_singleton]
    exact ⟨fun v hv => htrans v hv (hnew hp) (hall v hv), hself⟩
  · rw [if_neg hp]
    refine ⟨List.mem_append_left _ hmem, ?_⟩
    rw [List.forall_mem_append, List.forall_mem_singleton]
    exact ⟨hall, hold hp⟩

/-- The next sum of integers, if it can be held. -/
theorem add_integerSum {n : ℤ} (hn : d.toInt? = some n) :
    add d (.integerSum (if vals = [] then none else some (Datum.integers vals).sum)) =
      if FitsInt8 (Datum.integers (vals ++ [d])).sum then
        .ok (.integerSum (some (Datum.integers (vals ++ [d])).sum))
      else .error .sumOverflow := by
  have htotal : (if vals = [] then none else some (Datum.integers vals).sum).getD 0 + n =
      (Datum.integers (vals ++ [d])).sum := by
    rw [Datum.integers_concat vals hn, List.sum_append, List.sum_singleton]
    split
    next hnil =>
      rw [hnil]
      rfl
    next => rfl
  rw [add, hn]
  dsimp only
  rw [htotal]
  rfl

theorem add_floatSum {x : Float8} (hx : d.toFloat8? = some x) :
    add d (.floatSum (if vals = [] then none else some (Datum.floatTotal vals))) =
      .ok (.floatSum (some (Datum.floatTotal (vals ++ [d])))) := by
  have htotal : (if vals = [] then none else some (Datum.floatTotal vals)).getD (.ofNat 0) =
      Datum.floatTotal vals := by
    split
    next hnil =>
      rw [hnil]
      rfl
    next => rfl
  rw [add, hx]
  dsimp only
  rw [htotal, Datum.floatTotal_concat vals hx]

theorem Summarises.add (h : acc.Summarises a counted vals) (hadmits : a.Admits schema type)
    (hvals : ∀ v ∈ vals, v.type? = some type) (hd : d.type? = some type)
    (hadd : acc.add d = .ok next) : next.Summarises a (counted + 1) (vals ++ [d]) := by
  have hsome : vals ++ [d] ≠ [] := List.append_ne_nil_of_right_ne_nil _ (List.cons_ne_nil d [])
  have hself : (d.totalCompare d).isLE := by rw [d.totalCompare_self]; rfl
  cases h with
  | count hcount =>
    cases hadd
    exact .count hcount
  | integerSum hsum hadds =>
    obtain ⟨n, hn⟩ := hadmits.exists_toInt? hsum hd
    rw [add_integerSum hn] at hadd
    split at hadd
    next hfits =>
      cases hadd
      have hadds' : AddsUp (Datum.integers (vals ++ [d])) := by
        rw [Datum.integers_concat vals hn] at hfits ⊢
        exact addsUp_concat.mpr ⟨hadds, hfits⟩
      have hnext : Summarises a (counted + 1) (vals ++ [d]) _ := .integerSum hsum hadds'
      rwa [if_neg hsome] at hnext
    next => cases hadd
  | floatSum hsum hfloat =>
    obtain ⟨x, hx⟩ := hadmits.exists_toFloat8? hsum hfloat hd
    rw [add_floatSum hx] at hadd
    cases hadd
    have hnext : Summarises a (counted + 1) (vals ++ [d]) _ := .floatSum hsum hfloat
    rwa [if_neg hsome] at hnext
  | least found hmin hfound =>
    cases found with
    | none =>
      cases hadd
      exact .least _ hmin (hfound.first hself)
    | some c =>
      cases hadd
      have hc := hvals c hfound.1
      refine .least _ hmin (hfound.concat hself (fun hlt => ?_)
        Datum.isLE_totalCompare_of_ne_lt fun v hv => Datum.totalCompare_trans hd hc (hvals v hv))
      rw [hlt]
      rfl
  | greatest found hmax hfound =>
    cases found with
    | none =>
      cases hadd
      exact .greatest _ hmax (hfound.first hself)
    | some c =>
      cases hadd
      have hc := hvals c hfound.1
      refine .greatest _ hmax (hfound.concat hself (fun hgt => ?_) (fun hle => ?_)
        fun v hv hcd hvc => Datum.totalCompare_trans (hvals v hv) hc hd hvc hcd)
      · refine Datum.isLE_totalCompare_of_ne_lt ?_
        rw [hgt]
        exact Ordering.noConfusion
      · cases hdc : d.totalCompare c with
        | lt | eq => rfl
        | gt => exact absurd hdc hle
  | average havg =>
    obtain ⟨x, hx⟩ := Datum.exists_toFloat8? (hadmits.avg havg) hd
    rw [Accumulator.add, hx] at hadd
    cases hadd
    have hnext : Summarises a (counted + 1) (vals ++ [d]) _ := .average havg
    rwa [Datum.floatTotal_concat vals hx, List.length_append, List.length_singleton] at hnext

/-- A value of the type of the argument is refused only if the sum with it cannot be held. -/
theorem Summarises.of_add_error (h : acc.Summarises a counted vals)
    (hadmits : a.Admits schema type) (hd : d.type? = some type)
    (hadd : acc.add d = .error fault) :
    fault = .sumOverflow ∧ a.SumsIntegers ∧ ¬FitsInt8 (Datum.integers (vals ++ [d])).sum := by
  cases h with
  | count => cases hadd
  | integerSum hsum hadds =>
    obtain ⟨n, hn⟩ := hadmits.exists_toInt? hsum hd
    rw [add_integerSum hn] at hadd
    split at hadd
    next => cases hadd
    next hfits =>
      cases hadd
      exact ⟨rfl, hsum, hfits⟩
  | floatSum hsum hfloat =>
    obtain ⟨x, hx⟩ := hadmits.exists_toFloat8? hsum hfloat hd
    rw [add_floatSum hx] at hadd
    cases hadd
  | least found => cases found <;> cases hadd
  | greatest found => cases found <;> cases hadd
  | average havg =>
    obtain ⟨x, hx⟩ := Datum.exists_toFloat8? (hadmits.avg havg) hd
    rw [Accumulator.add, hx] at hadd
    cases hadd

/-- Without an argument only rows are counted. -/
theorem Summarises.star (h : acc.Summarises a counted vals) (hcount : a.function = .count) :
    acc = .count counted := by
  cases h with
  | count => rfl
  | integerSum hsum => cases hcount.symm.trans hsum.1
  | floatSum hsum | least _ hsum | greatest _ hsum | average hsum => cases hcount.symm.trans hsum

end Summaries

end Accumulator

namespace BoundAggregate

variable {a : BoundAggregate} {schema : Schema} {type : DataType} {rows : List Row} {row : Row}
  {acc next : Accumulator} {fault : EvalError}

/-- Whether an aggregate has accumulated the values that its argument has on some rows. -/
structure Accumulates (a : BoundAggregate) (rows : List Row) (acc : Accumulator) : Prop where
  evaluates : ∀ row ∈ rows, ∀ e, a.argument = some e → ∃ d, e.eval row = .ok d
  summarises : acc.Summarises a (a.counted rows) (a.values rows)

/-- What a row is to an aggregate: one more row, a row on which the argument fails, one on which it
is null, or one with a value of the type of the argument. -/
theorem feed_cases (hadmits : a.Admits schema type) (hrow : row.Conforms schema)
    (acc : Accumulator) :
    (a.argument = none ∧ a.function = .count ∧ a.feed row acc = acc.update none) ∨
      (∃ e fault, a.argument = some e ∧ e.eval row = .error fault ∧
        a.feed row acc = .error fault) ∨
      (∃ e d, a.argument = some e ∧ e.eval row = .ok d ∧ a.value? row = none ∧
        a.feed row acc = .ok acc) ∨
      ∃ e d, a.argument = some e ∧ e.eval row = .ok d ∧ a.value? row = some d ∧
        d.type? = some type ∧ a.feed row acc = acc.add d := by
  rw [BoundAggregate.feed]
  cases harg : a.argument with
  | none => exact .inl ⟨rfl, hadmits.star harg, rfl⟩
  | some e =>
    cases heval : e.eval row with
    | error fault =>
      dsimp only
      rw [heval]
      exact .inr (.inl ⟨e, fault, rfl, heval, rfl⟩)
    | ok d =>
      have hvalue := value?_of_ok harg heval
      dsimp only
      rw [heval]
      by_cases hnull : d = .null
      · subst hnull
        exact .inr (.inr (.inl ⟨e, .null, rfl, heval, hvalue, rfl⟩))
      · have hkept : a.value? row = some d := by
          rw [hvalue]
          cases d
          case null => exact absurd rfl hnull
          all_goals rfl
        refine .inr (.inr (.inr ⟨e, d, rfl, heval, hkept, hadmits.type_value? hrow hkept, ?_⟩))
        cases d
        case null => exact absurd rfl hnull
        all_goals rfl

theorem Accumulates.feed (h : a.Accumulates rows acc) (hadmits : a.Admits schema type)
    (hrows : ∀ row ∈ rows, row.Conforms schema) (hrow : row.Conforms schema)
    (hfeed : a.feed row acc = .ok next) : a.Accumulates (rows ++ [row]) next := by
  obtain ⟨hevaluates, hsummarises⟩ := h
  have hevaluates' : (∀ e, a.argument = some e → ∃ d, e.eval row = .ok d) →
      ∀ row' ∈ rows ++ [row], ∀ e, a.argument = some e → ∃ d, e.eval row' = .ok d := by
    intro hlast
    rw [List.forall_mem_append, List.forall_mem_singleton]
    exact ⟨hevaluates, hlast⟩
  rcases feed_cases hadmits hrow acc with ⟨harg, hcount, heq⟩ | ⟨e, fault, harg, heval, heq⟩ |
    ⟨e, d, harg, heval, hvalue, heq⟩ | ⟨e, d, harg, heval, hvalue, htype, heq⟩
  · refine ⟨hevaluates' fun e he => (by rw [harg] at he; cases he), ?_⟩
    obtain rfl := hsummarises.star hcount
    cases heq.symm.trans hfeed
    have hcounted : a.counted (rows ++ [row]) = a.counted rows + 1 := by
      rw [counted, counted, harg]
      exact List.length_append
    rw [← hcounted]
    exact .count hcount
  · cases heq.symm.trans hfeed
  · refine ⟨hevaluates' fun e' he => ?_, ?_⟩
    · cases harg.symm.trans he
      exact ⟨d, heval⟩
    · cases heq.symm.trans hfeed
      have hvalues : a.values (rows ++ [row]) = a.values rows := by
        rw [values_concat, hvalue, Option.toList_none, List.append_nil]
      have hcounted : a.counted (rows ++ [row]) = a.counted rows := by
        rw [counted, counted, harg, hvalues]
      rwa [hvalues, hcounted]
  · refine ⟨hevaluates' fun e' he => ?_, ?_⟩
    · cases harg.symm.trans he
      exact ⟨d, heval⟩
    · have hvalues : a.values (rows ++ [row]) = a.values rows ++ [d] := by
        rw [values_concat, hvalue, Option.toList_some]
      have hcounted : a.counted (rows ++ [row]) = a.counted rows + 1 := by
        rw [counted, counted, harg, hvalues]
        exact List.length_append
      rw [hvalues, hcounted]
      exact hsummarises.add hadmits (hadmits.type_of_mem_values hrows) htype
        (heq.symm.trans hfeed)

/-- A row is refused if the argument fails on it, or a sum cannot be held. -/
theorem Accumulates.of_feed_error (h : a.Accumulates rows acc) (hadmits : a.Admits schema type)
    (hrow : row.Conforms schema) (hfeed : a.feed row acc = .error fault) :
    (∃ e, a.argument = some e ∧ e.eval row = .error fault) ∨
      (fault = .sumOverflow ∧ a.SumsIntegers ∧
        ¬FitsInt8 (Datum.integers (a.values (rows ++ [row]))).sum) := by
  rcases feed_cases hadmits hrow acc with ⟨harg, hcount, heq⟩ | ⟨e, fault', harg, heval, heq⟩ |
    ⟨e, d, harg, heval, hvalue, heq⟩ | ⟨e, d, harg, heval, hvalue, htype, heq⟩
  · obtain rfl := h.summarises.star hcount
    cases heq.symm.trans hfeed
  · cases heq.symm.trans hfeed
    exact .inl ⟨e, harg, heval⟩
  · cases heq.symm.trans hfeed
  · have herror := h.summarises.of_add_error hadmits htype (heq.symm.trans hfeed)
    rw [values_concat, hvalue, Option.toList_some]
    exact .inr herror

theorem accumulates_nil (a : BoundAggregate) : a.Accumulates [] a.fresh := by
  have hcounted : a.counted [] = 0 := by
    rw [counted]
    cases a.argument <;> rfl
  refine ⟨fun row hrow => absurd hrow List.not_mem_nil, ?_⟩
  rw [hcounted]
  exact Accumulator.summarises_fresh a

/-- Induct on the rows from behind, as an accumulator takes them in. -/
theorem accumulates_of_accumulate (hadmits : a.Admits schema type)
    (hrows : ∀ row ∈ rows, row.Conforms schema) (h : a.accumulate rows = .ok acc) :
    a.Accumulates rows acc := by
  induction rows using List.reverseRecOn generalizing acc with
  | nil =>
    cases h
    exact accumulates_nil a
  | append_singleton rows row ih =>
    rw [List.forall_mem_append, List.forall_mem_singleton] at hrows
    rw [accumulate_concat] at h
    obtain ⟨before, hbefore, hfeed⟩ := Except.bind_eq_ok.mp h
    exact (ih hrows.1 hbefore).feed hadmits hrows.1 hrows.2 hfeed

/-- An aggregate of rows is refused where its argument fails, or where a sum on the way cannot be
held. -/
theorem of_accumulate_error (hadmits : a.Admits schema type)
    (hrows : ∀ row ∈ rows, row.Conforms schema) (h : a.accumulate rows = .error fault) :
    (∃ row ∈ rows, ∃ e, a.argument = some e ∧ e.eval row = .error fault) ∨
      (fault = .sumOverflow ∧ a.SumsIntegers ∧ ¬AddsUp (Datum.integers (a.values rows))) := by
  induction rows using List.reverseRecOn with
  | nil => cases h
  | append_singleton rows row ih =>
    rw [List.forall_mem_append, List.forall_mem_singleton] at hrows
    rw [accumulate_concat] at h
    rcases Except.bind_eq_error.mp h with hbefore | ⟨acc, hbefore, hfeed⟩
    · rcases ih hrows.1 hbefore with ⟨row', hrow', hfails⟩ | ⟨hfault, hsum, hadds⟩
      · exact .inl ⟨row', List.mem_append_left _ hrow', hfails⟩
      · refine .inr ⟨hfault, hsum, fun hall => hadds fun front hfront => hall front ?_⟩
        rw [values_concat, Datum.integers, List.filterMap_append]
        exact hfront.trans (List.prefix_append _ _)
    · have hacc := accumulates_of_accumulate hadmits hrows.1 hbefore
      rcases hacc.of_feed_error hadmits hrows.2 hfeed with hfails | ⟨hfault, hsum, hfits⟩
      · exact .inl ⟨row, List.mem_append_right _ (List.mem_singleton_self row), hfails⟩
      · exact .inr ⟨hfault, hsum, fun hall => hfits (hall _ List.prefix_rfl)⟩

/-- Whether rows can be taken into an aggregate. -/
structure Takes (a : BoundAggregate) (rows : List Row) : Prop where
  evaluates : ∀ row ∈ rows, ∀ e, a.argument = some e → ∃ d, e.eval row = .ok d
  addsUp : a.SumsIntegers → AddsUp (Datum.integers (a.values rows))

theorem Accumulates.takes (h : a.Accumulates rows acc) : a.Takes rows := by
  refine ⟨h.evaluates, fun hsum => ?_⟩
  cases h.summarises with
  | integerSum _ hadds => exact hadds
  | floatSum _ hfloat => cases hsum.2.symm.trans hfloat
  | count hfunction | least _ hfunction | greatest _ hfunction | average hfunction =>
    cases hsum.1.symm.trans hfunction

/-- The result of an accumulator is what its aggregate is said to be. -/
theorem Accumulates.yields_result (h : a.Accumulates rows acc) : a.Yields rows acc.result := by
  cases h.summarises with
  | count hcount => exact .count hcount
  | integerSum hsum hadds =>
    by_cases hnil : a.values rows = []
    · rw [if_pos hnil]
      exact .null (by rw [hsum.1]; exact AggregateFunction.noConfusion) hnil
    · rw [if_neg hnil]
      exact .integerSum _ hsum hnil (toInt_ofInt_of_fitsInt8 (hadds _ List.prefix_rfl))
  | floatSum hsum hfloat =>
    by_cases hnil : a.values rows = []
    · rw [if_pos hnil]
      exact .null (by rw [hsum]; exact AggregateFunction.noConfusion) hnil
    · rw [if_neg hnil]
      exact .floatSum hsum hfloat hnil
  | least found hmin hfound =>
    cases found with
    | none => exact .null (by rw [hmin]; exact AggregateFunction.noConfusion) hfound
    | some d => exact .least d hmin hfound.1 hfound.2
  | greatest found hmax hfound =>
    cases found with
    | none => exact .null (by rw [hmax]; exact AggregateFunction.noConfusion) hfound
    | some d => exact .greatest d hmax hfound.1 hfound.2
  | average havg =>
    rw [Accumulator.result]
    by_cases hnil : a.values rows = []
    · rw [if_pos (by rw [hnil]; rfl)]
      exact .null (by rw [havg]; exact AggregateFunction.noConfusion) hnil
    · rw [if_neg fun hlength => hnil (List.length_eq_zero_iff.mp hlength)]
      exact .average havg hnil

end BoundAggregate

end BlockQuery
