import BlockQuery.Plan
import BlockQuery.Row.Codec
import BlockQuery.RowSource

/-!
# Grouping

Rows belong to one group if their keys are stored alike.  A group yields its
keys and its aggregates; groups come in the order of their first rows.  Without
keys all rows are one group, which is there even if there is no row.
-/

namespace BlockQuery

structure BoundAggregate where
  function : AggregateFunction
  argument : Option BoundExpr
  /-- Whether a sum is one of doubles. -/
  floatSum : Bool
deriving DecidableEq, Repr

/-- What an aggregate has seen so far. -/
inductive Accumulator where
  | count (n : Nat)
  | integerSum (total : Option Int)
  | floatSum (total : Option Float8)
  | least (value : Option Datum)
  | greatest (value : Option Datum)
  | average (total : Float8) (count : Nat)
deriving DecidableEq, Repr

namespace Accumulator

def ofFunction (floats : Bool) : AggregateFunction → Accumulator
  | .count => count 0
  | .sum => if floats then floatSum none else integerSum none
  | .min => least none
  | .max => greatest none
  | .avg => average (.ofNat 0) 0

/-- Takes in a value that is not null. -/
def add (value : Datum) : Accumulator → Except EvalError Accumulator
  | count n => .ok (count (n + 1))
  | integerSum total =>
    match value.toInt? with
    | none => .error (.sumNeedsInteger value)
    | some n =>
      let sum := total.getD 0 + n
      if int8Low ≤ sum ∧ sum ≤ int8High then .ok (integerSum (some sum)) else .error .sumOverflow
  | floatSum total =>
    match value.toFloat8? with
    | none => .error (.sumNeedsNumber value)
    | some x => .ok (floatSum (some ((total.getD (.ofNat 0)).add x)))
  | least current =>
    match current with
    | none => .ok (least (some value))
    | some c => .ok (least (some (if value.totalCompare c = .lt then value else c)))
  | greatest current =>
    match current with
    | none => .ok (greatest (some value))
    | some c => .ok (greatest (some (if value.totalCompare c = .gt then value else c)))
  | average total n =>
    match value.toFloat8? with
    | none => .error (.averageNeedsNumber value)
    | some x => .ok (average (total.add x) (n + 1))

/-- Takes in the value of an argument, or a row as such if there is none.
Nulls do not count. -/
def update (value : Option Datum) (acc : Accumulator) : Except EvalError Accumulator :=
  match value with
  | some .null => .ok acc
  | some d => acc.add d
  | none =>
    match acc with
    | count n => .ok (count (n + 1))
    | other => .ok other

def result : Accumulator → Datum
  | count n => .int8 (Int64.ofNat n)
  | integerSum total => (total.map fun n => .int8 (Int64.ofInt n)).getD .null
  | floatSum total => (total.map .float8).getD .null
  | least value => value.getD .null
  | greatest value => value.getD .null
  | average total n => if n = 0 then .null else .float8 (total.div (.ofNat n))

end Accumulator

namespace BoundAggregate

def fresh (a : BoundAggregate) : Accumulator := Accumulator.ofFunction a.floatSum a.function

/-- Takes a row into the accumulator of an aggregate. -/
def feed (a : BoundAggregate) (row : Row) (acc : Accumulator) : Except EvalError Accumulator :=
  match a.argument with
  | none => acc.update none
  | some e =>
    match e.eval row with
    | .error fault => .error fault
    | .ok value => acc.update (some value)

/-- Takes a row into the accumulators of all aggregates. -/
def feedAll (row : Row) :
    List BoundAggregate → List Accumulator → Except EvalError (List Accumulator)
  | a :: as, acc :: accs => do
    let acc ← a.feed row acc
    let accs ← feedAll row as accs
    return acc :: accs
  | _, _ => .ok []

end BoundAggregate

structure Group where
  key : Row
  /-- The key as it is stored, which tells groups apart. -/
  tag : Bytes
  accumulators : List Accumulator
deriving DecidableEq, Repr

namespace Group

def fresh (aggregates : List BoundAggregate) (key : Row) : Group :=
  ⟨key, key.encode, aggregates.map BoundAggregate.fresh⟩

def feed (aggregates : List BoundAggregate) (row : Row) (g : Group) : Except EvalError Group :=
  (BoundAggregate.feedAll row aggregates g.accumulators).map fun accs =>
    { g with accumulators := accs }

def result (g : Group) : Row := g.key ++ g.accumulators.map Accumulator.result

/-- Takes a row with a key into the group of that key, which may be new. -/
def absorb (aggregates : List BoundAggregate) (row key : Row) (tag : Bytes) :
    List Group → Except EvalError (List Group)
  | [] => ((fresh aggregates key).feed aggregates row).map fun g => [g]
  | g :: gs =>
    if g.tag = tag then (g.feed aggregates row).map fun g => g :: gs
    else (absorb aggregates row key tag gs).map fun gs => g :: gs

theorem length_absorb {aggregates : List BoundAggregate} {row key : Row} {tag : Bytes}
    {gs gs' : List Group} (h : absorb aggregates row key tag gs = .ok gs') :
    gs'.length ≤ gs.length + 1 := by
  induction gs generalizing gs' with
  | nil =>
    unfold absorb at h
    cases hf : (fresh aggregates key).feed aggregates row with
    | error e => simp [hf, Except.map] at h
    | ok g =>
      simp only [hf, Except.map, Except.ok.injEq] at h
      simp [← h]
  | cons g gs ih =>
    unfold absorb at h
    split at h
    · cases hf : g.feed aggregates row with
      | error e => simp [hf, Except.map] at h
      | ok g' =>
        simp only [hf, Except.map, Except.ok.injEq] at h
        simp [← h]
    · cases hf : absorb aggregates row key tag gs with
      | error e => simp [hf, Except.map] at h
      | ok rest =>
        simp only [hf, Except.map, Except.ok.injEq] at h
        have := ih hf
        simp only [← h, List.length_cons]
        omega

end Group

namespace RowSource

/-- Takes a row into the groups, by its values at the key positions. -/
def grouped (keys : List Nat) (aggregates : List BoundAggregate) (row : Row) (gs : List Group) :
    Except ExecError (List Group) :=
  let key := row.select keys
  (Group.absorb aggregates row key key.encode gs).mapError .eval

theorem length_grouped (keys : List Nat) (aggregates : List BoundAggregate) (row : Row)
    (gs gs' : List Group) (h : grouped keys aggregates row gs = .ok gs') :
    gs'.length ≤ gs.length + 1 := by
  change (Group.absorb aggregates row (row.select keys) _ gs).mapError ExecError.eval = .ok gs' at h
  cases hf : Group.absorb aggregates row (row.select keys) (row.select keys).encode gs with
  | error e => rw [hf] at h; exact nomatch h
  | ok found => rw [hf] at h; exact Except.ok.inj h ▸ Group.length_absorb hf

/-- The rows of groups.  Without keys there is always one. -/
def groupRows (keys : List Nat) (aggregates : List BoundAggregate) (gs : List Group) : List Row :=
  if gs.isEmpty && keys.isEmpty then [(Group.fresh aggregates []).result]
  else gs.map Group.result

theorem length_groupRows_le (keys : List Nat) (aggregates : List BoundAggregate)
    (gs : List Group) : (groupRows keys aggregates gs).length ≤ gs.length + 1 := by
  unfold groupRows
  split <;> simp

/-- The rows that were made of a child, and the number of those yielded. -/
structure GroupState (child : RowSource) where
  child : child.State
  output : Option (List Row)
  position : Nat

namespace GroupState

variable {child : RowSource}

/-- The next row of the output. -/
def pop (s : GroupState child) (rows : List Row) :
    Except ExecError (Option Row) × GroupState child :=
  match rows[s.position]? with
  | some row => (.ok (some row), { s with position := s.position + 1 })
  | none => (.ok none, s)

def next (keys : List Nat) (aggregates : List BoundAggregate) (cancelled : Bool)
    (s : GroupState child) : Except ExecError (Option Row) × GroupState child :=
  match s.output with
  | some rows => s.pop rows
  | none =>
    match child.fold cancelled (grouped keys aggregates) s.child [] with
    | (_, .error e, t) => (.error e, { s with child := t })
    | (gs, .ok _, t) =>
      let rows := groupRows keys aggregates gs
      pop ⟨t, some rows, s.position⟩ rows

def left (s : GroupState child) : Nat :=
  match s.output with
  | some rows => rows.length - s.position
  | none => child.left s.child + 1 - s.position

theorem left_lt_of_pop {s s' : GroupState child} {row : Row} {rows : List Row}
    (hs : s.output = some rows) (h : s.pop rows = (.ok (some row), s')) :
    s'.left < rows.length - s.position := by
  unfold pop at h
  split at h
  next r hr =>
    have hlt := (List.getElem?_eq_some_iff.1 hr).1
    simp only [Prod.mk.injEq] at h
    simp only [← h.2, left, hs]
    omega
  · simp at h

theorem left_lt_of_next {keys : List Nat} {aggregates : List BoundAggregate} {cancelled : Bool}
    {s s' : GroupState child} {row : Row}
    (h : s.next keys aggregates cancelled = (.ok (some row), s')) : s'.left < s.left := by
  unfold next at h
  split at h
  next rows hs =>
    have := left_lt_of_pop hs h
    simpa [left, hs] using this
  next hs =>
    split at h
    · simp at h
    next gs _ t hfold =>
      refine Nat.lt_of_lt_of_le (left_lt_of_pop rfl h) ?_
      have hsize := child.size_fold_le cancelled (grouped keys aggregates) List.length
        (length_grouped keys aggregates) s.child []
      rw [hfold] at hsize
      have hrows := length_groupRows_le keys aggregates gs
      simp only [left, hs]
      simp only [List.length_nil, Nat.zero_add] at hsize
      omega

end GroupState

/-- The groups of the rows of a child. -/
def aggregate (keys : List Nat) (aggregates : List BoundAggregate) (child : RowSource) :
    RowSource where
  State := GroupState child
  start := ⟨child.start, none, 0⟩
  init cancelled s :=
    let (result, t) := child.init cancelled s.child
    (result, ⟨t, none, 0⟩)
  next cancelled s :=
    if cancelled then (.error .cancelled, s) else s.next keys aggregates cancelled
  reset s := { s with position := 0 }
  close s := { s with child := child.close s.child, output := none }
  tally s := child.tally s.child
  left := GroupState.left
  left_lt := by
    intro cancelled s s' row h
    cases cancelled
    · exact GroupState.left_lt_of_next h
    · simp at h

end RowSource
end BlockQuery
