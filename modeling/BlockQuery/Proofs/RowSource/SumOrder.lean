import BlockQuery.Proofs.RowSource.Grouping

/-!
# Sums of integers in other orders

Whether integers can be added one after the other depends on their order, since every sum on the
way has to be held.  They can be added in any order if those that are positive can be added, and
those that are negative; and in some order if their sum can be held.  This is shown for all groups
of a list of rows at once.
-/

namespace BlockQuery

/-- Whether the positive ones among some integers have a sum that can be held, and the negative
ones. -/
def BoundedSums (ns : List ℤ) : Prop :=
  FitsInt8 (ns.filter fun n => 0 < n).sum ∧ FitsInt8 (ns.filter fun n => n < 0).sum

section Sums

variable {ns : List ℤ}

theorem sum_filter_neg_le (ns : List ℤ) : (ns.filter fun n => n < 0).sum ≤ ns.sum := by
  induction ns with
  | nil => exact Int.le_refl 0
  | cons n ns ih =>
    rw [List.filter_cons, List.sum_cons]
    split
    next =>
      rw [List.sum_cons]
      exact Int.add_le_add_left ih n
    next hn =>
      rw [decide_eq_true_iff] at hn
      omega

theorem le_sum_filter_pos (ns : List ℤ) : ns.sum ≤ (ns.filter fun n => 0 < n).sum := by
  induction ns with
  | nil => exact Int.le_refl 0
  | cons n ns ih =>
    rw [List.filter_cons, List.sum_cons]
    split
    next =>
      rw [List.sum_cons]
      exact Int.add_le_add_left ih n
    next hn =>
      rw [decide_eq_true_iff] at hn
      omega

/-- Integers with bounded sums add up in any order: the sums on the way lie between those of all
negative and of all positive ones. -/
theorem BoundedSums.addsUp_of_perm (h : BoundedSums ns) {other : List ℤ} (hperm : other.Perm ns) :
    AddsUp other := by
  rintro front ⟨back, rfl⟩
  have hlow : (ns.filter fun n => n < 0).sum ≤ (front.filter fun n => n < 0).sum := by
    have hback : (back.filter fun n => n < 0).sum ≤ 0 :=
      (List.sum_le_card_nsmul _ 0 fun n hn =>
        Int.le_of_lt (of_decide_eq_true (List.mem_filter.mp hn).2)).trans_eq (nsmul_zero _)
    rw [← (hperm.filter _).sum_eq, List.filter_append, List.sum_append]
    omega
  have hhigh : (front.filter fun n => 0 < n).sum ≤ (ns.filter fun n => 0 < n).sum := by
    have hback : 0 ≤ (back.filter fun n => 0 < n).sum :=
      List.sum_nonneg fun n hn => Int.le_of_lt (of_decide_eq_true (List.mem_filter.mp hn).2)
    rw [← (hperm.filter _).sum_eq, List.filter_append, List.sum_append]
    omega
  exact ⟨h.2.1.trans (hlow.trans (sum_filter_neg_le front)),
    (le_sum_filter_pos front).trans (hhigh.trans h.1.2)⟩

/-- One of some integers can be added behind the others. -/
theorem exists_fitsInt8_sub (hsome : ns ≠ []) (hall : ∀ n ∈ ns, FitsInt8 n)
    (hsum : FitsInt8 ns.sum) : ∃ n ∈ ns, FitsInt8 (ns.sum - n) := by
  have hzeros : (ns.map fun _ => (0 : ℤ)).sum = 0 := List.sum_map_zero
  have hself : (ns.map fun n => n).sum = ns.sum := congrArg List.sum (List.map_id' ns)
  -- the one that is added last has the sign of the sum
  rcases Int.lt_or_le ns.sum 0 with hsign | hsign
  · obtain ⟨n, hn, hneg⟩ := List.exists_le_of_sum_le (f := fun n : ℤ => n) (g := fun _ => (0 : ℤ))
      hsome (by rw [hzeros, hself]; exact Int.le_of_lt hsign)
    have hlow := (hall n hn).1
    refine ⟨n, hn, ?_, ?_⟩ <;> unfold FitsInt8 int8Low int8High at * <;> omega
  · obtain ⟨n, hn, hpos⟩ := List.exists_le_of_sum_le (f := fun _ => (0 : ℤ)) (g := fun n => n)
      hsome (by rwa [hzeros, hself])
    have hhigh := (hall n hn).2
    refine ⟨n, hn, ?_, ?_⟩ <;> unfold FitsInt8 int8Low int8High at * <;> omega

end Sums

theorem Datum.fitsInt8_of_toInt? {d : Datum} {n : ℤ} (h : d.toInt? = some n) : FitsInt8 n := by
  cases d <;> cases h
  case int4 m =>
    have hlow := m.le_toInt
    have hhigh := m.toInt_lt
    unfold FitsInt8 int8Low int8High
    omega
  case int8 m =>
    have hlow := m.le_toInt
    have hhigh := m.toInt_lt
    unfold FitsInt8 int8Low int8High
    omega

/-! ## The integers of a column -/

/-- The integer at a place of a row, if there is one. -/
def Row.integer? (i : ℕ) (row : Row) : Option ℤ := row[i]?.bind Datum.toInt?

/-- The integers at a place of some rows. -/
def columnIntegers (i : ℕ) (rows : List Row) : List ℤ := rows.filterMap (Row.integer? i)

section Columns

variable {i : ℕ} {keys : List ℕ} {rows other : List Row} {row leader : Row}

theorem Row.fitsInt8_of_integer? {n : ℤ} (h : row.integer? i = some n) : FitsInt8 n := by
  obtain ⟨d, -, hd⟩ := Option.bind_eq_some_iff.mp h
  exact Datum.fitsInt8_of_toInt? hd

theorem columnIntegers_append (i : ℕ) (rows other : List Row) :
    columnIntegers i (rows ++ other) = columnIntegers i rows ++ columnIntegers i other :=
  List.filterMap_append

theorem columnIntegers_perm (h : rows.Perm other) :
    (columnIntegers i rows).Perm (columnIntegers i other) :=
  h.filterMap _

/-- A row without an integer does not add to a sum. -/
theorem sum_columnIntegers (i : ℕ) (rows : List Row) :
    (columnIntegers i rows).sum = (rows.map fun row => (row.integer? i).getD 0).sum := by
  induction rows with
  | nil => rfl
  | cons row rows ih =>
    rw [List.map_cons, List.sum_cons, ← ih, columnIntegers]
    cases h : row.integer? i with
    | none =>
      rw [List.filterMap_cons_none h]
      exact (Int.zero_add _).symm
    | some n =>
      rw [List.filterMap_cons_some h, List.sum_cons]
      rfl

theorem addsUp_columnIntegers_concat : AddsUp (columnIntegers i (rows ++ [row])) ↔
    AddsUp (columnIntegers i rows) ∧ FitsInt8 (columnIntegers i (rows ++ [row])).sum := by
  rw [columnIntegers_append]
  cases h : row.integer? i with
  | none =>
    rw [show columnIntegers i [row] = [] from List.filterMap_cons_none h, List.append_nil]
    exact ⟨fun hadds => ⟨hadds, hadds _ List.prefix_rfl⟩, And.left⟩
  | some n =>
    rw [show columnIntegers i [row] = [n] from List.filterMap_cons_some h]
    exact addsUp_concat

/-- The rows whose integers pass a test have the integers that pass it. -/
theorem columnIntegers_filter (i : ℕ) (p : ℤ → Bool) (rows : List Row) :
    columnIntegers i (rows.filter fun row => (row.integer? i).any p) =
      (columnIntegers i rows).filter p := by
  rw [columnIntegers, columnIntegers, List.filterMap_filter, List.filter_filterMap]
  refine List.filterMap_congr fun row _ => ?_
  cases row.integer? i <;> rfl

theorem groupOf_append (keys : List ℕ) (rows other : List Row) (leader : Row) :
    groupOf keys (rows ++ other) leader = groupOf keys rows leader ++ groupOf keys other leader :=
  List.filter_append _ _

theorem groupOf_perm (keys : List ℕ) (h : rows.Perm other) (leader : Row) :
    (groupOf keys rows leader).Perm (groupOf keys other leader) :=
  h.filter _

/-- What holds of no rows holds of every group if it holds of those of the rows. -/
theorem forall_groupOf {P : List Row → Prop} (hnil : P [])
    (h : ∀ row ∈ rows, P (groupOf keys rows row)) (leader : Row) :
    P (groupOf keys rows leader) := by
  cases hgroup : groupOf keys rows leader with
  | nil => exact hnil
  | cons row members =>
    have hmem : row ∈ groupOf keys rows leader := hgroup ▸ List.mem_cons_self
    obtain ⟨hrow, hsame⟩ := List.mem_filter.mp hmem
    rw [← hgroup, ← groupOf_congr (of_decide_eq_true hsame)]
    exact h row hrow

/-! ## Orders of rows -/

theorem perm_erase_concat (h : row ∈ rows) : (rows.erase row ++ [row]).Perm rows :=
  (List.perm_append_singleton _ _).trans (List.perm_cons_erase h).symm

/-- In any order the integers of every group add up just if they have bounded sums. -/
theorem forall_perm_addsUp_iff (i : ℕ) (keys : List ℕ) (rows : List Row) :
    (∀ other : List Row, other.Perm rows →
      ∀ row ∈ other, AddsUp (columnIntegers i (groupOf keys other row))) ↔
      ∀ row ∈ rows, BoundedSums (columnIntegers i (groupOf keys rows row)) := by
  constructor
  · intro h row hrow
    -- the integers that pass a test come first in some order
    have hfirst : ∀ p : ℤ → Bool,
        FitsInt8 ((columnIntegers i (groupOf keys rows row)).filter p).sum := by
      intro p
      have hperm := List.filter_append_perm (fun row => (row.integer? i).any p) rows
      have hadds := h _ hperm row (hperm.mem_iff.mpr hrow)
      rw [groupOf_append, columnIntegers_append] at hadds
      rw [← columnIntegers_filter]
      convert hadds _ (List.prefix_append _ _) using 3
      rw [groupOf, groupOf, List.filter_filter, List.filter_filter]
      exact List.filter_congr fun _ _ => Bool.and_comm _ _
    exact ⟨hfirst _, hfirst _⟩
  · intro h other hperm row hrow
    exact (h row (hperm.mem_iff.mp hrow)).addsUp_of_perm
      (columnIntegers_perm (groupOf_perm keys hperm row))

/-- Some row can be put behind the others, so that without it the sums of all groups can still be
held. -/
theorem exists_last (hsome : rows ≠ [])
    (h : ∀ row, FitsInt8 (columnIntegers i (groupOf keys rows row)).sum) :
    ∃ last ∈ rows,
      ∀ row, FitsInt8 (columnIntegers i (groupOf keys (rows.erase last) row)).sum := by
  obtain ⟨leader, hleader⟩ := List.exists_mem_of_ne_nil rows hsome
  have hmem : leader ∈ groupOf keys rows leader :=
    List.mem_filter.mpr ⟨hleader, decide_eq_true rfl⟩
  have hall : ∀ n ∈ (groupOf keys rows leader).map fun row => (row.integer? i).getD 0,
      FitsInt8 n := by
    rw [List.forall_mem_map]
    intro row _
    cases hrow : row.integer? i with
    | none => exact fitsInt8_zero
    | some n => exact Row.fitsInt8_of_integer? hrow
  have hsum := h leader
  rw [sum_columnIntegers] at hsum
  obtain ⟨m, hm, hrest⟩ := exists_fitsInt8_sub
    (fun hnil => List.ne_nil_of_mem hmem (List.map_eq_nil_iff.mp hnil)) hall hsum
  obtain ⟨last, hlast, rfl⟩ := List.mem_map.mp hm
  obtain ⟨hlast, hsame⟩ := List.mem_filter.mp hlast
  refine ⟨last, hlast, fun row => ?_⟩
  have hgroup := groupOf_perm keys (perm_erase_concat hlast) row
  by_cases hkey : storedKey keys last = storedKey keys row
  · rw [← groupOf_congr (of_decide_eq_true hsame), groupOf_congr hkey, ← sum_columnIntegers,
      ← (columnIntegers_perm hgroup).sum_eq, groupOf_concat_of_eq hkey, sum_columnIntegers,
      List.map_append, List.sum_append, List.map_singleton, List.sum_singleton,
      Int.add_sub_cancel] at hrest
    rwa [sum_columnIntegers]
  · rw [groupOf_concat_of_ne hkey] at hgroup
    rw [(columnIntegers_perm hgroup).sum_eq]
    exact h row

/-- Rows can be put in an order in which the integers of every group add up, if the sums of all
groups can be held.  Induct on the number of rows, one of which is put behind the others. -/
theorem exists_perm_addsUp (i : ℕ) (keys : List ℕ) (rows : List Row)
    (h : ∀ row, FitsInt8 (columnIntegers i (groupOf keys rows row)).sum) :
    ∃ other : List Row, other.Perm rows ∧
      ∀ row, AddsUp (columnIntegers i (groupOf keys other row)) := by
  induction hn : rows.length generalizing rows with
  | zero =>
    rw [List.length_eq_zero_iff.mp hn]
    exact ⟨[], .nil, fun _ => addsUp_nil⟩
  | succ n ih =>
    obtain ⟨last, hlast, hrest⟩ := exists_last (List.ne_nil_of_length_eq_add_one hn) h
    obtain ⟨front, hfront, hadds⟩ := ih _ hrest (by
      rw [List.length_erase_of_mem hlast, hn]
      rfl)
    have hperm := (hfront.append_right [last]).trans (perm_erase_concat hlast)
    refine ⟨front ++ [last], hperm, fun row => ?_⟩
    by_cases hkey : storedKey keys last = storedKey keys row
    · have hsum := h row
      rw [← (columnIntegers_perm (groupOf_perm keys hperm row)).sum_eq,
        groupOf_concat_of_eq hkey] at hsum
      rw [groupOf_concat_of_eq hkey]
      exact addsUp_columnIntegers_concat.mpr ⟨hadds row, hsum⟩
    · rw [groupOf_concat_of_ne hkey]
      exact hadds row

/-- In some order the integers of every group add up, just if the sums of all groups can be held. -/
theorem exists_perm_addsUp_iff (i : ℕ) (keys : List ℕ) (rows : List Row) :
    (∃ other : List Row, other.Perm rows ∧
      ∀ row ∈ other, AddsUp (columnIntegers i (groupOf keys other row))) ↔
      ∀ row ∈ rows, FitsInt8 (columnIntegers i (groupOf keys rows row)).sum := by
  constructor
  · rintro ⟨other, hperm, hadds⟩ row hrow
    rw [← (columnIntegers_perm (groupOf_perm keys hperm row)).sum_eq]
    exact hadds row (hperm.mem_iff.mpr hrow) _ List.prefix_rfl
  · intro h
    obtain ⟨other, hperm, hadds⟩ := exists_perm_addsUp i keys rows
      (forall_groupOf (P := fun members => FitsInt8 (columnIntegers i members).sum) fitsInt8_zero h)
    exact ⟨other, hperm, fun row _ => hadds row⟩

end Columns

end BlockQuery
