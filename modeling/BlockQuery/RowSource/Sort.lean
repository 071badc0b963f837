import BlockQuery.RowOrder
import BlockQuery.RowSource

/-!
# Sorting

The rows of the child are read and sorted when the first one is asked for.
-/

namespace BlockQuery.RowSource

/-- The rows of a child that were sorted, and those not yet yielded. -/
structure SortState (child : RowSource) where
  child : child.State
  sorted : Option (List Row)
  rest : List Row

namespace SortState

variable {child : RowSource}

/-- The next sorted row. -/
def pop (s : SortState child) : Except ExecError (Option Row) × SortState child :=
  (.ok s.rest.head?, { s with rest := s.rest.tail })

def next (order : RowOrder) (cancelled : Bool) (s : SortState child) :
    Except ExecError (Option Row) × SortState child :=
  match s.sorted with
  | some _ => s.pop
  | none =>
    match child.drain cancelled s.child with
    | (.error e, t) => (.error e, { s with child := t })
    | (.ok rows, t) =>
      let sorted := order.sort rows
      pop ⟨t, some sorted, sorted⟩

def left (s : SortState child) : Nat :=
  match s.sorted with
  | some _ => s.rest.length
  | none => child.left s.child

theorem left_lt_of_pop {s s' : SortState child} {row : Row} {rows : List Row}
    (hs : s.sorted = some rows) (h : s.pop = (.ok (some row), s')) :
    s'.left < s.rest.length := by
  rcases s with ⟨c, sorted, rest⟩
  cases rest with
  | nil => simp [pop] at h
  | cons r rs =>
    simp only [pop, Prod.mk.injEq, List.tail_cons] at h
    simp only at hs
    simp [← h.2, left, hs]

theorem left_lt_of_next {order : RowOrder} {cancelled : Bool} {s s' : SortState child} {row : Row}
    (h : s.next order cancelled = (.ok (some row), s')) : s'.left < s.left := by
  unfold next at h
  split at h
  next rows hs =>
    have := left_lt_of_pop hs h
    simpa [left, hs] using this
  next hs =>
    split at h
    · simp at h
    next rows t hdrain =>
      refine Nat.lt_of_lt_of_le (left_lt_of_pop rfl h) ?_
      unfold drain at hdrain
      have hlen := child.length_gather_le cancelled s.child []
      split at hdrain
      · simp at hdrain
      next found _ u hgather =>
        rw [hgather] at hlen
        simp only [Prod.mk.injEq, Except.ok.injEq] at hdrain
        simp only [left, hs, RowOrder.sort, List.length_mergeSort, ← hdrain.1,
          List.length_reverse]
        simpa using hlen

end SortState

/-- The rows of a child in order. -/
def sort (child : RowSource) (order : RowOrder) : RowSource where
  State := SortState child
  start := ⟨child.start, none, []⟩
  init cancelled s :=
    let (result, t) := child.init cancelled s.child
    (result, ⟨t, none, []⟩)
  next cancelled s := if cancelled then (.error .cancelled, s) else s.next order cancelled
  reset s := { s with rest := s.sorted.getD [] }
  close s := ⟨child.close s.child, none, []⟩
  tally s := child.tally s.child
  left := SortState.left
  left_lt := by
    intro cancelled s s' row h
    cases cancelled
    · exact SortState.left_lt_of_next h
    · simp at h

end BlockQuery.RowSource
