import Mathlib.Tactic
import BlockQuery.RowOrder

/-!
# The order of typed rows

Values of different types are not ordered transitively: integers are compared
exactly with each other and as doubles with doubles.  Where each sort column
holds nulls and values of one type, the order of rows is the order below, which
is transitive on all rows.
-/

namespace BlockQuery

open Std (TransCmp OrientedCmp)

theorem transCmp_comap {α β : Type} {cmp : β → β → Ordering} (h : TransCmp cmp) (f : α → β) :
    TransCmp fun a b => cmp (f a) (f b) where
  eq_swap := h.eq_swap
  isLE_trans := h.isLE_trans

theorem transCmp_compareText : TransCmp compareText := by
  have hlists : TransCmp (List.compareLex (compareOn Char.toNat)) := inferInstance
  exact transCmp_comap hlists String.toList

theorem eq_of_compareText {a b : String} (h : compareText a b = .eq) : a = b := by
  have hrefl : Std.ReflCmp fun c d : Char => compare c.toNat d.toNat :=
    ⟨Nat.compare_eq_eq.mpr rfl⟩
  have hchars : Std.LawfulEqCmp fun c d : Char => compare c.toNat d.toNat :=
    ⟨fun h => Char.toNat_inj.mp (Nat.compare_eq_eq.mp h)⟩
  have htexts : Std.LawfulEqCmp (List.compareLex fun c d : Char => compare c.toNat d.toNat) :=
    inferInstance
  exact String.toList_inj.mp (htexts.eq_of_compare h)

/-! ## Sorting by a comparison -/

section MergeSort

variable {α : Type} {cmp other : α → α → Ordering}

/-- Comparisons that agree on the elements of a list sort it in the same way. -/
theorem mergeSort_congr {xs : List α} (h : ∀ a ∈ xs, ∀ b ∈ xs, cmp a b = other a b) :
    (xs.mergeSort fun a b => (cmp a b).isLE) = xs.mergeSort fun a b => (other a b).isLE := by
  simpa using List.map_mergeSort (f := id) (l := xs) fun a ha b hb =>
    congrArg Ordering.isLE (h a ha b hb)

theorem isLE_total (h : OrientedCmp cmp) (a b : α) : (cmp a b).isLE || (cmp b a).isLE := by
  rw [h.eq_swap (a := b)]
  cases cmp a b <;> rfl

theorem pairwise_mergeSort (h : TransCmp cmp) (xs : List α) :
    (xs.mergeSort fun a b => (cmp a b).isLE).Pairwise fun a b => (cmp a b).isLE :=
  @List.pairwise_mergeSort α (fun a b => (cmp a b).isLE) (fun _ _ _ => h.isLE_trans)
    (isLE_total h.toOrientedCmp) xs

/-- Elements of which none is above another keep their order. -/
theorem filter_mergeSort (h : TransCmp cmp) (xs : List α) {p : α → Bool}
    (hp : ∀ a b, p a → p b → (cmp a b).isLE) :
    (xs.mergeSort fun a b => (cmp a b).isLE).filter p = xs.filter p := by
  have hkept : (xs.filter p).Pairwise fun a b => (cmp a b).isLE := by
    apply List.pairwise_of_forall_mem_list
    intro a ha b hb
    exact hp a b (List.mem_filter.mp ha).2 (List.mem_filter.mp hb).2
  have hsub := @List.sublist_mergeSort α (fun a b => (cmp a b).isLE) xs
    (fun _ _ _ => h.isLE_trans) (isLE_total h.toOrientedCmp) _ hkept List.filter_sublist
  have hfiltered := hsub.filter p
  simp only [List.filter_filter, Bool.and_self] at hfiltered
  apply Eq.symm
  apply hfiltered.eq_of_length
  exact ((List.mergeSort_perm xs _).filter p).length_eq.symm

end MergeSort

/-! ## Values -/

namespace Datum

/-- The order of the values of one type. -/
def compareAs (t : DataType) (a b : Datum) : Ordering :=
  match t with
  | .bool => compare (a.toBool?.map Bool.toNat) (b.toBool?.map Bool.toNat)
  | .int4 | .int8 => compare a.toInt? b.toInt?
  | .float8 => compare (a.toFloat8?.map Float8.rank) (b.toFloat8?.map Float8.rank)
  | .text => compareText (a.toText?.getD "") (b.toText?.getD "")

theorem transCmp_compareAs (t : DataType) : TransCmp (compareAs t) := by
  have hnat : TransCmp (compare : Option ℕ → Option ℕ → Ordering) := inferInstance
  have hint : TransCmp (compare : Option ℤ → Option ℤ → Ordering) := inferInstance
  cases t with
  | bool => exact transCmp_comap hnat fun a : Datum => a.toBool?.map Bool.toNat
  | int4 | int8 => exact transCmp_comap hint toInt?
  | float8 => exact transCmp_comap hint fun a : Datum => a.toFloat8?.map Float8.rank
  | text => exact transCmp_comap transCmp_compareText fun a : Datum => a.toText?.getD ""

/-- Whether a value is compared like those of a type.  Integers of either width are. -/
def ComparesAs (t : DataType) (d : Datum) : Prop :=
  match t with
  | .int4 | .int8 => d.toInt?.isSome = true
  | t => d.type? = some t

theorem comparesAs_of_type {t : DataType} {d : Datum} (h : d.type? = some t) : d.ComparesAs t := by
  cases d <;> cases h <;> rfl

theorem totalCompare_eq {t : DataType} {a b : Datum} (ha : a.ComparesAs t)
    (hb : b.ComparesAs t) : a.totalCompare b = compareAs t a b := by
  cases t <;> cases a <;> cases ha <;> cases b <;> cases hb <;> rfl

theorem compareNumbers_swap (a b : Datum) : b.compareNumbers a = (a.compareNumbers b).swap := by
  have hint (x y : ℤ) : compare y x = (compare x y).swap := Std.OrientedCmp.eq_swap
  unfold compareNumbers
  rcases a.toInt? with _ | x <;> rcases b.toInt? with _ | y <;> try exact hint _ _
  all_goals
    dsimp only
    rcases a.toFloat8? with _ | x <;> rcases b.toFloat8? with _ | y <;> try rfl
    exact hint _ _

/-- The order of all values can be turned around, even though it is not transitive. -/
theorem totalCompare_swap (a b : Datum) : b.totalCompare a = (a.totalCompare b).swap := by
  have hnat : ∀ x y : ℕ, compare y x = (compare x y).swap := fun _ _ => Std.OrientedCmp.eq_swap
  have hmixed : (if b.isNumeric && a.isNumeric then compareNumbers b a
      else compare b.classRank a.classRank) =
        (if a.isNumeric && b.isNumeric then compareNumbers a b
          else compare a.classRank b.classRank).swap := by
    rw [Bool.and_comm, compareNumbers_swap a b, hnat a.classRank b.classRank]
    split <;> rfl
  cases a <;> cases b
  case bool.bool x y => exact hnat _ _
  case text.text x y => exact transCmp_compareText.eq_swap
  all_goals exact hmixed

theorem totalCompare_self (a : Datum) : a.totalCompare a = .eq := by
  have hswap := totalCompare_swap a a
  cases h : a.totalCompare a <;> rw [h] at hswap <;> cases hswap

theorem isLE_totalCompare_of_ne_lt {a b : Datum} (h : a.totalCompare b ≠ .lt) :
    (b.totalCompare a).isLE := by
  rw [totalCompare_swap a b]
  cases hab : a.totalCompare b with
  | lt => exact absurd hab h
  | eq | gt => rfl

/-- Values of one type are ordered transitively. -/
theorem totalCompare_trans {t : DataType} {a b c : Datum} (ha : a.type? = some t)
    (hb : b.type? = some t) (hc : c.type? = some t) (hab : (a.totalCompare b).isLE)
    (hbc : (b.totalCompare c).isLE) : (a.totalCompare c).isLE := by
  have ha := comparesAs_of_type ha
  have hb := comparesAs_of_type hb
  have hc := comparesAs_of_type hc
  rw [totalCompare_eq ha hb] at hab
  rw [totalCompare_eq hb hc] at hbc
  rw [totalCompare_eq ha hc]
  exact (transCmp_compareAs t).isLE_trans hab hbc

end Datum

/-! ## Rows -/

namespace SortKey

theorem compare_swap (key : SortKey) (a b : Row) : key.compare b a = (key.compare a b).swap := by
  rw [compare, compare]
  cases key.value? a <;> cases key.value? b
  case some.some x y =>
    have hswap := Datum.totalCompare_swap x y
    dsimp only
    split
    · exact hswap
    · rw [hswap]
  all_goals cases key.nullsFirst <;> rfl

/-- An order of values with nulls on one side of them. -/
def withNulls (nullsFirst : Bool) (cmp : Datum → Datum → Ordering) :
    Option Datum → Option Datum → Ordering
  | none, none => .eq
  | none, some _ => if nullsFirst then .lt else .gt
  | some _, none => if nullsFirst then .gt else .lt
  | some x, some y => cmp x y

theorem transCmp_withNulls (nullsFirst : Bool) {cmp : Datum → Datum → Ordering}
    (h : TransCmp cmp) : TransCmp (withNulls nullsFirst cmp) where
  eq_swap := by
    intro a b
    cases a <;> cases b
    case some.some x y => exact h.eq_swap
    all_goals cases nullsFirst <;> rfl
  isLE_trans := by
    intro a b c hab hbc
    cases a <;> cases b <;> cases c
    case some.some.some x y z => exact h.isLE_trans hab hbc
    all_goals cases nullsFirst <;> simp_all [withNulls]

/-- The order of rows by a key whose column has the given type. -/
def compareAs (t : DataType) (key : SortKey) (a b : Row) : Ordering :=
  withNulls key.nullsFirst
    (if key.ascending then Datum.compareAs t else fun x y => Datum.compareAs t y x)
    (key.value? a) (key.value? b)

theorem transCmp_compareAs (t : DataType) (key : SortKey) : TransCmp (key.compareAs t) := by
  have hvalues : TransCmp
      (if key.ascending then Datum.compareAs t else fun x y => Datum.compareAs t y x) := by
    have htrans := Datum.transCmp_compareAs t
    split
    · exact htrans
    · exact TransCmp.opposite
  exact transCmp_comap (transCmp_withNulls key.nullsFirst hvalues) key.value?

/-- Whether a key reads null from a row or what is compared like the values of a type. -/
def Typed (t : DataType) (key : SortKey) (row : Row) : Prop :=
  ∀ d, key.value? row = some d → d.ComparesAs t

theorem compare_eq {t : DataType} {key : SortKey} {a b : Row} (ha : key.Typed t a)
    (hb : key.Typed t b) : key.compare a b = key.compareAs t a b := by
  rw [compare, compareAs]
  rcases hx : key.value? a with _ | x <;> rcases hy : key.value? b with _ | y
  case some.some =>
    have hcompare := Datum.totalCompare_eq (ha x hx) (hb y hy)
    have hswap : (Datum.compareAs t x y).swap = Datum.compareAs t y x :=
      (Datum.transCmp_compareAs t).eq_swap.symm
    dsimp only [withNulls]
    split <;> simp [hcompare, hswap]
  all_goals rfl

end SortKey

namespace RowOrder

/-- The order of rows by keys whose columns have the given types. -/
def compareKeysAs (types : ℕ → DataType) : List SortKey → Row → Row → Ordering
  | [], _, _ => .eq
  | key :: keys, a, b => (key.compareAs (types key.position) a b).then (compareKeysAs types keys a b)

theorem transCmp_compareKeysAs (types : ℕ → DataType) (keys : List SortKey) :
    TransCmp (compareKeysAs types keys) := by
  induction keys with
  | nil =>
    refine { eq_swap := ?_, isLE_trans := ?_ }
    · exact fun {_ _} => rfl
    · exact fun {_ _ _} _ _ => rfl
  | cons key keys ih =>
    have hkey := key.transCmp_compareAs (types key.position)
    exact inferInstanceAs (TransCmp (compareLex (key.compareAs (types key.position))
      (compareKeysAs types keys)))

/-- Whether each sort column of a row holds null or what is compared like the values of its
type: a value of this type, or an integer of the other width. -/
def Typed (types : ℕ → DataType) (order : RowOrder) (row : Row) : Prop :=
  ∀ key ∈ order.keys, key.Typed (types key.position) row

variable {types : ℕ → DataType} {order : RowOrder} {a b c : Row}

theorem compare_eq (ha : order.Typed types a) (hb : order.Typed types b) :
    order.compare a b = compareKeysAs types order.keys a b := by
  rw [compare]
  unfold Typed at ha hb
  generalize order.keys = keys at ha hb ⊢
  induction keys with
  | nil => rfl
  | cons key keys ih =>
    obtain ⟨hka, hrest⟩ := List.forall_mem_cons.mp ha
    obtain ⟨hkb, hrest'⟩ := List.forall_mem_cons.mp hb
    rw [compareKeys, compareKeysAs, SortKey.compare_eq hka hkb, ih hrest hrest']

theorem compare_swap (order : RowOrder) (a b : Row) :
    order.compare b a = (order.compare a b).swap := by
  rw [compare, compare]
  induction order.keys with
  | nil => rfl
  | cons key keys ih => rw [compareKeys, compareKeys, key.compare_swap a b, ih, Ordering.swap_then]

theorem compare_trans (ha : order.Typed types a) (hb : order.Typed types b)
    (hc : order.Typed types c) (hab : (order.compare a b).isLE) (hbc : (order.compare b c).isLE) :
    (order.compare a c).isLE := by
  rw [compare_eq ha hb] at hab
  rw [compare_eq hb hc] at hbc
  rw [compare_eq ha hc]
  exact (transCmp_compareKeysAs types order.keys).isLE_trans hab hbc

theorem compare_lt_of_isLE_of_lt (ha : order.Typed types a) (hb : order.Typed types b)
    (hc : order.Typed types c) (hab : (order.compare a b).isLE) (hbc : order.compare b c = .lt) :
    order.compare a c = .lt := by
  have htrans := transCmp_compareKeysAs types order.keys
  rw [compare_eq ha hb] at hab
  rw [compare_eq hb hc] at hbc
  rw [compare_eq ha hc]
  exact htrans.lt_of_isLE_of_lt hab hbc

theorem compare_lt_of_lt_of_isLE (ha : order.Typed types a) (hb : order.Typed types b)
    (hc : order.Typed types c) (hab : order.compare a b = .lt) (hbc : (order.compare b c).isLE) :
    order.compare a c = .lt := by
  have htrans := transCmp_compareKeysAs types order.keys
  rw [compare_eq ha hb] at hab
  rw [compare_eq hb hc] at hbc
  rw [compare_eq ha hc]
  exact htrans.lt_of_lt_of_isLE hab hbc

theorem compare_congr {order other : RowOrder} (h : order.keys = other.keys) :
    order.compare = other.compare := by
  funext a b
  rw [compare, compare, h]

end RowOrder

end BlockQuery
