import BlockQuery.Proofs.Index.Scan
import BlockQuery.Proofs.Index.Writing

/-!
# Bounds

The entries that a bound keeps out stand on one side of the others, if they are
in order and can be compared with its key.  Then a range scan is a filter.  Only
between bounds that it takes to be inverted a scan does not look.
-/

namespace BlockQuery.Index

open Std (TransCmp)

section Order

variable {types : ℕ → DataType} {order : RowOrder} {entries : List (Row × ℕ)} {key : Row}

/-- Whether a key can be searched among entries: they are compared with it transitively, and
stand in the order of this comparison. -/
def Searchable (order : RowOrder) (entries : List (Row × ℕ)) (key : Row) : Prop :=
  ∃ cmp : Row → Row → Ordering, TransCmp cmp ∧
    (∀ e ∈ entries, order.compare e.1 key = cmp e.1 key) ∧
    ∀ a ∈ entries, ∀ b ∈ entries, (order.compare a.1 b.1).isLE → (cmp a.1 b.1).isLE

theorem searchable_of_typed (htyped : ∀ e ∈ entries, order.Typed types e.1)
    (hkey : order.Typed types key) : Searchable order entries key := by
  refine ⟨RowOrder.compareKeysAs types order.keys, RowOrder.transCmp_compareKeysAs types order.keys,
    ?_, ?_⟩
  · exact fun e he => RowOrder.compare_eq (htyped e he) hkey
  · intro a ha b hb hab
    rwa [RowOrder.compare_eq (htyped a ha) (htyped b hb)] at hab

theorem holdsFirst_lt (hascending : Ascending order entries)
    (h : Searchable order entries key) :
    HoldsFirst (fun e : Row × ℕ => order.compare e.1 key == .lt) entries := by
  obtain ⟨cmp, htrans, hkey, horder⟩ := h
  apply List.Pairwise.imp_of_mem _ hascending
  intro a b ha hb hab hbefore
  rw [beq_iff_eq, hkey b hb] at hbefore
  rw [beq_iff_eq, hkey a ha]
  exact htrans.lt_of_isLE_of_lt (horder a ha b hb hab) hbefore

theorem holdsFirst_isLE (hascending : Ascending order entries)
    (h : Searchable order entries key) :
    HoldsFirst (fun e : Row × ℕ => (order.compare e.1 key).isLE) entries := by
  obtain ⟨cmp, htrans, hkey, horder⟩ := h
  apply List.Pairwise.imp_of_mem _ hascending
  intro a b ha hb hab hbefore
  dsimp only at hbefore ⊢
  rw [hkey b hb] at hbefore
  rw [hkey a ha]
  exact htrans.isLE_trans (horder a ha b hb hab) hbefore

end Order

namespace Bound

variable {types : ℕ → DataType} {order : RowOrder} {entries : List (Row × ℕ)} {lower upper : Bound}

/-- Whether the key of a bound can be searched among entries. -/
def Searchable (order : RowOrder) (entries : List (Row × ℕ)) (b : Bound) : Prop :=
  ∀ key, b.key? = some key → Index.Searchable order entries key

/-- Whether the sort columns of a bound hold nulls and values of their types. -/
def Typed (types : ℕ → DataType) (order : RowOrder) (b : Bound) : Prop :=
  ∀ key, b.key? = some key → order.Typed types key

theorem searchable_of_typed {b : Bound} (htyped : ∀ e ∈ entries, order.Typed types e.1)
    (hb : b.Typed types order) : b.Searchable order entries :=
  fun key hkey => Index.searchable_of_typed htyped (hb key hkey)

theorem not_bne_lt (o : Ordering) : (!(o != .lt)) = (o == .lt) := by cases o <;> rfl

theorem not_beq_gt (o : Ordering) : (!(o == .gt)) = o.isLE := by cases o <;> rfl

theorem bne_gt (o : Ordering) : (o != .gt) = o.isLE := by cases o <;> rfl

theorem isLE_swap_of_bne_lt {o : Ordering} (h : (o != .lt) = true) : o.swap.isLE = true := by
  cases o
  · cases h
  · rfl
  · rfl

/-- The entries that a lower bound keeps out come first. -/
theorem holdsFirst_above (hascending : Ascending order entries)
    (hlower : lower.Searchable order entries) :
    HoldsFirst (fun e : Row × ℕ => !lower.admitsAbove order e.1) entries := by
  cases lower with
  | unbounded => exact List.pairwise_of_forall fun _ _ hout => hout
  | included key =>
    simp only [admitsAbove, not_bne_lt]
    exact holdsFirst_lt hascending (hlower key rfl)
  | excluded key =>
    simp only [admitsAbove, not_beq_gt]
    exact holdsFirst_isLE hascending (hlower key rfl)

/-- The entries that an upper bound lets in come first. -/
theorem holdsFirst_below (hascending : Ascending order entries)
    (hupper : upper.Searchable order entries) :
    HoldsFirst (fun e : Row × ℕ => upper.admitsBelow order e.1) entries := by
  cases upper with
  | unbounded => exact List.pairwise_of_forall fun _ _ hin => hin
  | included key =>
    simp only [admitsBelow, bne_gt]
    exact holdsFirst_isLE hascending (hupper key rfl)
  | excluded key =>
    simp only [admitsBelow]
    exact holdsFirst_lt hascending (hupper key rfl)

/-- Between bounds that are taken to be inverted there is no key. -/
theorem admits_eq_false_of_inverted {key : Row} (hkey : order.Typed types key)
    (hlower : lower.Typed types order) (hupper : upper.Typed types order)
    (h : lower.inverted order upper = true) :
    (lower.admitsAbove order key && upper.admitsBelow order key) = false := by
  rw [Bool.eq_false_iff, ne_eq, Bool.and_eq_true]
  rintro ⟨habove, hbelow⟩
  cases lower with
  | unbounded => cases h
  | included l =>
    have hl := hlower l rfl
    have hle : (order.compare l key).isLE := by
      rw [RowOrder.compare_swap]
      exact isLE_swap_of_bne_lt habove
    cases upper with
    | unbounded => cases h
    | included u =>
      have hboth := RowOrder.compare_trans hl hkey (hupper u rfl) hle (by rwa [← bne_gt])
      rw [inverted, beq_iff_eq] at h
      rw [h] at hboth
      cases hboth
    | excluded u =>
      have hlt := eq_of_beq hbelow
      rw [inverted, RowOrder.compare_lt_of_isLE_of_lt hl hkey (hupper u rfl) hle hlt] at h
      cases h
  | excluded l =>
    have hl := hlower l rfl
    have hlt : order.compare l key = .lt := by
      rw [RowOrder.compare_swap, eq_of_beq habove]
      rfl
    cases upper with
    | unbounded => cases h
    | included u =>
      have hle : (order.compare key u).isLE := by rwa [← bne_gt]
      rw [inverted, RowOrder.compare_lt_of_lt_of_isLE hl hkey (hupper u rfl) hlt hle] at h
      cases h
    | excluded u =>
      have hle : (order.compare key u).isLE := by rw [eq_of_beq hbelow]; rfl
      rw [inverted, RowOrder.compare_lt_of_lt_of_isLE hl hkey (hupper u rfl) hlt hle] at h
      cases h

theorem admitsAbove_congr {other : RowOrder} (h : order.keys = other.keys) :
    admitsAbove order = admitsAbove other := by
  funext key b
  cases b <;> simp only [admitsAbove, RowOrder.compare_congr h]

theorem admitsBelow_congr {other : RowOrder} (h : order.keys = other.keys) :
    admitsBelow order = admitsBelow other := by
  funext key b
  cases b <;> simp only [admitsBelow, RowOrder.compare_congr h]

theorem inverted_congr {other : RowOrder} (h : order.keys = other.keys) :
    inverted order = inverted other := by
  funext lower upper
  cases lower <;> cases upper <;> simp only [inverted, RowOrder.compare_congr h]

end Bound

/-! ## Range scans -/

theorem checkBound_eq_error {r : Reader} {b : Bound} (hb : ¬b.HasWidth r.header.schema.length) :
    ∃ key, b.key? = some key ∧ key.length ≠ r.header.schema.length ∧
      r.checkBound b = .error (.invalidKey (.lookupWidth key.length r.header.schema)) := by
  rw [Bound.HasWidth] at hb
  push Not at hb
  obtain ⟨key, hkey, hwidth⟩ := hb
  refine ⟨key, hkey, hwidth, ?_⟩
  rw [Reader.checkBound, hkey]
  dsimp only
  rw [Reader.checkKey, if_pos hwidth]

/-- A key that does not fit the schema is refused. -/
theorem scan_eq_error {r : Reader} {lower upper : Bound}
    (h : ¬(lower.HasWidth r.header.schema.length ∧ upper.HasWidth r.header.schema.length)) :
    ∃ key, (lower.key? = some key ∨ upper.key? = some key) ∧
      key.length ≠ r.header.schema.length ∧
      r.scan lower upper = .error (.invalidKey (.lookupWidth key.length r.header.schema)) := by
  by_cases hlower : lower.HasWidth r.header.schema.length
  · have hupper : ¬upper.HasWidth r.header.schema.length := fun hupper => h ⟨hlower, hupper⟩
    obtain ⟨key, hkey, hwidth, hcheck⟩ := checkBound_eq_error hupper
    refine ⟨key, Or.inr hkey, hwidth, ?_⟩
    rw [Reader.scan, checkBound_eq_ok hlower, hcheck]
    rfl
  · obtain ⟨key, hkey, hwidth, hcheck⟩ := checkBound_eq_error hlower
    refine ⟨key, Or.inl hkey, hwidth, ?_⟩
    rw [Reader.scan, hcheck]
    rfl

theorem filter_eq_nil_of_inverted {types : ℕ → DataType} {order : RowOrder}
    {entries : List (Row × ℕ)} {lower upper : Bound}
    (htyped : ∀ e ∈ entries, order.Typed types e.1) (hlower : lower.Typed types order)
    (hupper : upper.Typed types order) (h : lower.inverted order upper = true) :
    (entries.filter fun e => lower.admitsAbove order e.1 && upper.admitsBelow order e.1) = [] := by
  apply List.filter_eq_nil_iff.mpr
  intro e he
  rw [Bound.admits_eq_false_of_inverted (htyped e he) hlower hupper h]
  exact Bool.false_ne_true

/-- Over entries in order a range scan is a filter, unless it takes its bounds to be inverted. -/
theorem scan_eq_filter_of_searchable {r : Reader} {order : RowOrder} {entries : List (Row × ℕ)}
    {lower upper : Bound} (hlists : r.Lists entries) (hkeys : r.order.keys = order.keys)
    (hascending : Ascending order entries) (hlowerWidth : lower.HasWidth r.header.schema.length)
    (hupperWidth : upper.HasWidth r.header.schema.length)
    (hlower : lower.Searchable order entries) (hupper : upper.Searchable order entries) :
    (r.scan lower upper).bind Scan.offsets =
      .ok (if lower.inverted order upper then [] else (entries.filter fun e =>
        lower.admitsAbove order e.1 && upper.admitsBelow order e.1).map Prod.snd) := by
  have habove := Bound.holdsFirst_above hascending hlower
  have hbelow := Bound.holdsFirst_below hascending hupper
  rw [← Bound.admitsAbove_congr hkeys] at habove
  rw [← Bound.admitsBelow_congr hkeys] at hbelow
  rw [scan_offsets hlists hlowerWidth hupperWidth habove hbelow, Bound.admitsAbove_congr hkeys,
    Bound.admitsBelow_congr hkeys, Bound.inverted_congr hkeys]

/-- Over entries and bounds of one type the filter finds nothing between inverted bounds. -/
theorem scan_eq_filter {types : ℕ → DataType} {r : Reader} {order : RowOrder}
    {entries : List (Row × ℕ)} {lower upper : Bound} (hlists : r.Lists entries)
    (hkeys : r.order.keys = order.keys) (hascending : Ascending order entries)
    (htyped : ∀ e ∈ entries, order.Typed types e.1)
    (hlowerWidth : lower.HasWidth r.header.schema.length)
    (hupperWidth : upper.HasWidth r.header.schema.length)
    (hlower : lower.Typed types order) (hupper : upper.Typed types order) :
    (r.scan lower upper).bind Scan.offsets =
      .ok ((entries.filter fun e =>
        lower.admitsAbove order e.1 && upper.admitsBelow order e.1).map Prod.snd) := by
  rw [scan_eq_filter_of_searchable hlists hkeys hascending hlowerWidth hupperWidth
    (Bound.searchable_of_typed htyped hlower) (Bound.searchable_of_typed htyped hupper)]
  split
  next hinverted =>
    rw [filter_eq_nil_of_inverted htyped hlower hupper hinverted]
    rfl
  next => rfl

end BlockQuery.Index
