import BlockQuery.Proofs.Float8.Rounding
import BlockQuery.Proofs.Row.Order

/-!
# Rows that are ordered

The comparison of rows is an order but for one thing.  Integers are compared exactly
with each other and as doubles with doubles, so that two different integers both
equal a double to which both are rounded.  A set of rows is ordered just if no row
stands between two others in this way.
-/

namespace BlockQuery

open Std (ReflCmp TransCmp)

/-! ## Circles -/

/-- Three elements that a comparison puts in a circle. -/
structure Circle {α : Type} (cmp : α → α → Ordering) (a b c : α) : Prop where
  fst : (cmp a b).isLE
  snd : (cmp b c).isLE
  back : cmp c a = .lt

namespace Circle

variable {α : Type} {cmp : α → α → Ordering} {a b c : α}

theorem not_of_transCmp (h : TransCmp cmp) : ¬Circle cmp a b c := by
  intro hcircle
  have hlt := h.lt_of_isLE_of_lt hcircle.snd hcircle.back
  have hswap : cmp a b = (cmp b a).swap := h.eq_swap
  have hle := hcircle.fst
  rw [hswap, hlt] at hle
  cases hle

/-- A circle of one comparison after another is a circle of the first, from whichever of the
elements one starts, or one of the second among elements that are equal in the first. -/
theorem of_then (cmp cmp' : α → α → Ordering)
    (h : Circle (fun x y => (cmp x y).then (cmp' x y)) a b c) :
    (Circle cmp a b c ∨ Circle cmp b c a ∨ Circle cmp c a b) ∨
      (cmp a b = .eq ∧ cmp b c = .eq ∧ cmp c a = .eq) ∧ Circle cmp' a b c := by
  obtain ⟨hab, hbc, hca⟩ := h
  have hle : ∀ {o o' : Ordering}, (o.then o').isLE → o.isLE := by
    intro o o' h
    cases o with
    | gt => exact h
    | lt | eq => rfl
  have hca' : (cmp c a).isLE := hle (by rw [hca]; rfl : ((cmp c a).then (cmp' c a)).isLE)
  have hab' := hle hab
  have hbc' := hle hbc
  rcases Ordering.isLE_iff_eq_lt_or_eq_eq.mp hab' with hlt | heq
  · exact Or.inl (Or.inr (Or.inl ⟨hbc', hca', hlt⟩))
  · rcases Ordering.isLE_iff_eq_lt_or_eq_eq.mp hbc' with hlt | heq'
    · exact Or.inl (Or.inr (Or.inr ⟨hca', hab', hlt⟩))
    · rcases Ordering.isLE_iff_eq_lt_or_eq_eq.mp hca' with hlt | heq''
      · exact Or.inl (Or.inl ⟨hab', hbc', hlt⟩)
      · rw [heq] at hab
        rw [heq'] at hbc
        rw [heq''] at hca
        exact Or.inr ⟨⟨heq, heq', heq''⟩, hab, hbc, hca⟩

end Circle

/-! ## Values -/

theorem Float8.rank_injective : Function.Injective Float8.rank := by
  intro x y h
  have hx := x.bits.toNat_lt
  have hy := y.bits.toNat_lt
  have hsign : signBit = 2 ^ 63 := rfl
  rw [rank, rank, isNegative, isNegative, magnitude, magnitude, hsign] at h
  have hbits : x.bits.toNat = y.bits.toNat := by
    simp only [decide_eq_true_eq] at h
    split_ifs at h <;> omega
  exact congrArg Float8.mk (UInt64.toNat_inj.mp hbits)

namespace Datum

variable {a b c : Datum} {m n : ℤ}

/-- Values of one type that are equal in their order do not differ, not even zeros or NaNs. -/
theorem eq_of_totalCompare_eq {t : DataType} {a b : Datum} (ha : a.type? = some t)
    (hb : b.type? = some t) (h : a.totalCompare b = .eq) : a = b := by
  rw [totalCompare_eq (comparesAs_of_type ha) (comparesAs_of_type hb)] at h
  have hsome : ∀ {x y : ℤ}, compare (some x) (some y) = .eq → x = y :=
    fun h => Option.some.inj (Std.LawfulEqCmp.eq_of_compare h)
  have hnat : ∀ {m n : ℕ}, compare (some m) (some n) = .eq → m = n :=
    fun h => Option.some.inj (Std.LawfulEqCmp.eq_of_compare h)
  cases a <;> cases ha <;> cases b <;> cases hb
  case bool x y =>
    have hbit := hnat h
    revert hbit
    cases x <;> cases y <;> decide
  case int4 m n => exact congrArg int4 (Int32.toInt_inj.mp (hsome h))
  case int8 m n => exact congrArg int8 (Int64.toInt_inj.mp (hsome h))
  case float8 x y => exact congrArg float8 (Float8.rank_injective (hsome h))
  case text s t => exact congrArg text (eq_of_compareText h)

/-- Whether a value is the double to which two different integers are rounded. -/
def Blurs (y x z : Datum) : Prop :=
  ∃ m n : ℤ, x.toInt? = some m ∧ z.toInt? = some n ∧ m ≠ n ∧
    y = .float8 (.ofInt m) ∧ y = .float8 (.ofInt n)

theorem Blurs.symm {x y z : Datum} (h : y.Blurs x z) : y.Blurs z x := by
  obtain ⟨m, n, hx, hz, hne, hm, hn⟩ := h
  exact ⟨n, m, hz, hx, hne.symm, hn, hm⟩

/-- The place of a number among the doubles. -/
def rank (d : Datum) : ℤ := (d.toFloat8?.map Float8.rank).getD 0

theorem rank_of_toInt? (h : a.toInt? = some m) : a.rank = (Float8.ofInt m).rank := by
  cases a <;> cases h <;> rfl

theorem totalCompare_of_toInt? (ha : a.toInt? = some m) (hb : b.toInt? = some n) :
    a.totalCompare b = compare m n := by
  cases a <;> cases ha <;> cases b <;> cases hb <;> rfl

/-- A double decides how a number is compared with it. -/
theorem totalCompare_eq_rank (ha : a.isNumeric = true) (hb : b.isNumeric = true)
    (h : a.toInt? = none ∨ b.toInt? = none) : a.totalCompare b = compare a.rank b.rank := by
  rcases h with h | h <;> cases a <;> cases ha <;> cases b <;> cases hb <;> first | rfl | cases h

theorem rank_le_of_isLE (ha : a.isNumeric = true) (hb : b.isNumeric = true)
    (h : (a.totalCompare b).isLE) : a.rank ≤ b.rank := by
  by_cases hfloat : a.toInt? = none ∨ b.toInt? = none
  · rw [totalCompare_eq_rank ha hb hfloat] at h
    exact Std.isLE_compare.mp h
  · obtain ⟨hinta, hintb⟩ := not_or.mp hfloat
    obtain ⟨m, hm⟩ := Option.ne_none_iff_exists'.mp hinta
    obtain ⟨n, hn⟩ := Option.ne_none_iff_exists'.mp hintb
    rw [totalCompare_of_toInt? hm hn] at h
    rw [rank_of_toInt? hm, rank_of_toInt? hn]
    exact Float8.rank_ofInt_mono (Std.isLE_compare.mp h)

/-- Values of different classes are ordered by their classes. -/
theorem classRank_le_of_isLE (h : (a.totalCompare b).isLE) : a.classRank ≤ b.classRank := by
  cases a <;> cases b <;> first | exact Nat.le_refl _ | exact Std.isLE_compare.mp h

/-- Numbers go round in a circle only if a double is between two integers that are rounded to it. -/
theorem blurs_of_circle_numeric (ha : a.isNumeric = true) (hb : b.isNumeric = true)
    (hc : c.isNumeric = true) (h : Circle totalCompare a b c) : b.Blurs a c := by
  have hab := rank_le_of_isLE ha hb h.fst
  have hbc := rank_le_of_isLE hb hc h.snd
  have hca := rank_le_of_isLE hc ha (by rw [h.back]; rfl)
  -- Were one of the two compared strictly a double, they would be equal.
  have hints : ¬(c.toInt? = none ∨ a.toInt? = none) := by
    intro hfloat
    have hlt := h.back
    rw [totalCompare_eq_rank hc ha hfloat] at hlt
    have := Std.compare_eq_lt.mp hlt
    omega
  obtain ⟨hintc, hinta⟩ := not_or.mp hints
  obtain ⟨n, hn⟩ := Option.ne_none_iff_exists'.mp hintc
  obtain ⟨m, hm⟩ := Option.ne_none_iff_exists'.mp hinta
  have hlt : n < m := by
    have hback := h.back
    rw [totalCompare_of_toInt? hn hm] at hback
    exact Std.compare_eq_lt.mp hback
  rw [rank_of_toInt? hm] at hab hca
  rw [rank_of_toInt? hn] at hbc hca
  cases hx : b.toInt? with
  | some k =>
    have hmk := h.fst
    have hkn := h.snd
    rw [totalCompare_of_toInt? hm hx] at hmk
    rw [totalCompare_of_toInt? hx hn] at hkn
    have := Std.isLE_compare.mp hmk
    have := Std.isLE_compare.mp hkn
    omega
  | none =>
    cases b <;> cases hb <;> try cases hx
    rename_i x
    have hrank : (float8 x).rank = x.rank := rfl
    rw [hrank] at hab hbc
    have hxm : x = Float8.ofInt m := Float8.rank_injective (by omega)
    have hxn : x = Float8.ofInt n := Float8.rank_injective (by omega)
    exact ⟨m, n, hm, hn, (ne_of_lt hlt).symm, by rw [← hxm], by rw [← hxn]⟩

/-- Values of one class, other than numbers, are compared like those of one type. -/
theorem exists_comparesAs (ha : a.classRank ≠ 0) (hnumeric : a.classRank ≠ 2) :
    ∃ t, ∀ d : Datum, d.classRank = a.classRank → d.ComparesAs t := by
  cases a with
  | null => exact absurd rfl ha
  | int4 | int8 | float8 => exact absurd rfl hnumeric
  | bool =>
    refine ⟨.bool, fun d hd => ?_⟩
    cases d <;> first | rfl | cases hd
  | text =>
    refine ⟨.text, fun d hd => ?_⟩
    cases d <;> first | rfl | cases hd

theorem eq_null_of_classRank (h : a.classRank = 0) : a = .null := by
  cases a <;> first | rfl | cases h

theorem isNumeric_of_classRank (h : a.classRank = 2) : a.isNumeric = true := by
  cases a <;> first | rfl | cases h

theorem blurs_of_circle (h : Circle totalCompare a b c) : b.Blurs a c := by
  have hab := classRank_le_of_isLE h.fst
  have hbc := classRank_le_of_isLE h.snd
  have hca : c.classRank ≤ a.classRank := classRank_le_of_isLE (by rw [h.back]; rfl)
  have hb : b.classRank = a.classRank := by omega
  have hc : c.classRank = a.classRank := by omega
  by_cases hnull : a.classRank = 0
  · have hback := h.back
    rw [eq_null_of_classRank hnull, eq_null_of_classRank (hc.trans hnull)] at hback
    cases hback
  · by_cases hnumeric : a.classRank = 2
    · exact blurs_of_circle_numeric (isNumeric_of_classRank hnumeric)
        (isNumeric_of_classRank (hb.trans hnumeric)) (isNumeric_of_classRank (hc.trans hnumeric)) h
    · obtain ⟨t, htyped⟩ := exists_comparesAs hnull hnumeric
      obtain ⟨hfst, hsnd, hback⟩ := h
      rw [totalCompare_eq (htyped a rfl) (htyped b hb)] at hfst
      rw [totalCompare_eq (htyped b hb) (htyped c hc)] at hsnd
      rw [totalCompare_eq (htyped c hc) (htyped a rfl)] at hback
      exact absurd ⟨hfst, hsnd, hback⟩ (Circle.not_of_transCmp (transCmp_compareAs t))

end Datum

/-! ## Rows -/

namespace SortKey

variable {key : SortKey} {a b c : Row}

/-- Whether a row has the double at a key to which different integers of two others are rounded. -/
def Blurs (key : SortKey) (b a c : Row) : Prop :=
  ∃ x y z, key.value? a = some x ∧ key.value? b = some y ∧ key.value? c = some z ∧ y.Blurs x z

theorem blurs_of_circle (h : Circle key.compare a b c) : key.Blurs b a c := by
  obtain ⟨hfst, hsnd, hback⟩ := h
  rw [compare] at hfst hsnd hback
  rw [Blurs]
  generalize key.value? a = x, key.value? b = y, key.value? c = z at hfst hsnd hback ⊢
  cases x <;> cases y <;> cases z
  case some.some.some x y z =>
    refine ⟨x, y, z, rfl, rfl, rfl, ?_⟩
    dsimp only at hfst hsnd hback
    cases hdirection : key.ascending with
    | true =>
      rw [if_pos hdirection] at hfst hsnd hback
      exact Datum.blurs_of_circle ⟨hfst, hsnd, hback⟩
    | false =>
      -- A descending key turns the circle around.
      have hdescending : ¬key.ascending = true := by rw [hdirection]; exact Bool.false_ne_true
      rw [if_neg hdescending, ← Datum.totalCompare_swap] at hfst hsnd hback
      exact (Datum.blurs_of_circle ⟨hsnd, hfst, hback⟩).symm
  all_goals cases hnulls : key.nullsFirst <;> simp_all

end SortKey

namespace RowOrder

variable {order : RowOrder} {a b c : Row}

/-- Whether the comparisons of three rows contradict each other.  The rows are the same for the
keys before some key, and at this key the middle one is a double to which different integers of the
others are rounded, which puts the last before the first. -/
structure Torn (order : RowOrder) (a b c : Row) : Prop where
  fst : (order.compare a b).isLE
  snd : (order.compare b c).isLE
  exists_key : ∃ before key after, order.keys = before ++ key :: after ∧
    (∀ k ∈ before, k.compare a b = .eq ∧ k.compare b c = .eq ∧ k.compare c a = .eq) ∧
    key.Blurs b a c ∧ key.compare c a = .lt

theorem compareKeys_of_first {before after : List SortKey} {key : SortKey}
    (hbefore : ∀ k ∈ before, k.compare a b = .eq) (hkey : key.compare a b = .lt) :
    compareKeys a b (before ++ key :: after) = .lt := by
  induction before with
  | nil => rw [List.nil_append, compareKeys, hkey, Ordering.lt_then]
  | cons k before ih =>
    obtain ⟨hk, hrest⟩ := List.forall_mem_cons.mp hbefore
    rw [List.cons_append, compareKeys, hk, Ordering.eq_then]
    exact ih hrest

theorem Torn.circle (h : order.Torn a b c) : Circle order.compare a b c := by
  obtain ⟨before, key, after, hkeys, hbefore, -, hkey⟩ := h.exists_key
  refine ⟨h.fst, h.snd, ?_⟩
  rw [compare, hkeys]
  exact compareKeys_of_first (fun k hk => (hbefore k hk).2.2) hkey

/-- In a circle of rows the first key that tells them apart has a circle, if not from the same row
on. -/
theorem exists_key_of_circle {keys : List SortKey}
    (h : Circle (fun x y => compareKeys x y keys) a b c) :
    ∃ before key after, keys = before ++ key :: after ∧
      (∀ k ∈ before, k.compare a b = .eq ∧ k.compare b c = .eq ∧ k.compare c a = .eq) ∧
      (Circle key.compare a b c ∨ Circle key.compare b c a ∨ Circle key.compare c a b) := by
  induction keys with
  | nil => cases h.back
  | cons key keys ih =>
    rcases Circle.of_then key.compare _ h with hkey | ⟨hsame, hrest⟩
    · exact ⟨[], key, keys, rfl, List.forall_mem_nil _, hkey⟩
    · obtain ⟨before, k, after, hkeys, hbefore, hcircle⟩ := ih hrest
      refine ⟨key :: before, k, after, ?_, List.forall_mem_cons.mpr ⟨hsame, hbefore⟩, hcircle⟩
      rw [hkeys, List.cons_append]

theorem torn_of_circle (h : Circle order.compare a b c) :
    order.Torn a b c ∨ order.Torn b c a ∨ order.Torn c a b := by
  have hback : (order.compare c a).isLE := by rw [h.back]; rfl
  obtain ⟨before, key, after, hkeys, hbefore, hcircle | hcircle | hcircle⟩ :=
    exists_key_of_circle h
  · refine Or.inl ⟨h.fst, h.snd, before, key, after, hkeys, hbefore, ?_, hcircle.back⟩
    exact SortKey.blurs_of_circle hcircle
  · refine Or.inr (Or.inl ⟨h.snd, hback, before, key, after, hkeys, ?_, ?_, hcircle.back⟩)
    · intro k hk
      obtain ⟨hab, hbc, hca⟩ := hbefore k hk
      exact ⟨hbc, hca, hab⟩
    · exact SortKey.blurs_of_circle hcircle
  · refine Or.inr (Or.inr ⟨hback, h.fst, before, key, after, hkeys, ?_, ?_, hcircle.back⟩)
    · intro k hk
      obtain ⟨hab, hbc, hca⟩ := hbefore k hk
      exact ⟨hca, hab, hbc⟩
    · exact SortKey.blurs_of_circle hcircle

/-- Whether the comparison is a total preorder of a set of rows. -/
structure IsPreorderOn (order : RowOrder) (rows : Set Row) : Prop where
  swap : ∀ a ∈ rows, ∀ b ∈ rows, order.compare a b = (order.compare b a).swap
  trans : ∀ a ∈ rows, ∀ b ∈ rows, ∀ c ∈ rows,
    (order.compare a b).isLE → (order.compare b c).isLE → (order.compare a c).isLE
  eq_refl : ∀ a ∈ rows, order.compare a a = .eq
  eq_symm : ∀ a ∈ rows, ∀ b ∈ rows, order.compare a b = .eq → order.compare b a = .eq
  eq_trans : ∀ a ∈ rows, ∀ b ∈ rows, ∀ c ∈ rows,
    order.compare a b = .eq → order.compare b c = .eq → order.compare a c = .eq
  congr_left : ∀ a ∈ rows, ∀ b ∈ rows, ∀ c ∈ rows,
    order.compare a b = .eq → order.compare a c = order.compare b c
  congr_right : ∀ a ∈ rows, ∀ b ∈ rows, ∀ c ∈ rows,
    order.compare a b = .eq → order.compare c a = order.compare c b

theorem IsPreorderOn.of_transCmp {rows : Set Row}
    (h : TransCmp fun a b : rows => order.compare a b) : order.IsPreorderOn rows where
  swap a ha b hb := h.eq_swap (a := ⟨a, ha⟩) (b := ⟨b, hb⟩)
  trans a ha b hb c hc := h.isLE_trans (a := ⟨a, ha⟩) (b := ⟨b, hb⟩) (c := ⟨c, hc⟩)
  eq_refl a ha := by
    have hrefl : ReflCmp fun a b : rows => order.compare a b := inferInstance
    exact hrefl.compare_self (a := ⟨a, ha⟩)
  eq_symm a ha b hb := h.eq_symm (a := ⟨a, ha⟩) (b := ⟨b, hb⟩)
  eq_trans a ha b hb c hc := h.eq_trans (a := ⟨a, ha⟩) (b := ⟨b, hb⟩) (c := ⟨c, hc⟩)
  congr_left a ha b hb c hc := h.congr_left (a := ⟨a, ha⟩) (b := ⟨b, hb⟩) (c := ⟨c, hc⟩)
  congr_right a ha b hb c hc := h.congr_right (a := ⟨c, hc⟩) (b := ⟨a, ha⟩) (c := ⟨b, hb⟩)

/-- The comparison is a total preorder of a set of rows just if the comparisons of no three of
them contradict each other because of a double and the integers that are rounded to it. -/
theorem isPreorderOn_iff {rows : Set Row} : order.IsPreorderOn rows ↔
    ∀ a ∈ rows, ∀ b ∈ rows, ∀ c ∈ rows, ¬order.Torn a b c := by
  constructor
  · intro h a ha b hb c hc htorn
    have hcircle := htorn.circle
    have hle := h.trans a ha b hb c hc hcircle.fst hcircle.snd
    rw [order.compare_swap c a, hcircle.back] at hle
    cases hle
  · intro h
    refine IsPreorderOn.of_transCmp { eq_swap := ?_, isLE_trans := ?_ }
    · intro a b
      exact order.compare_swap b a
    · intro a b c hab hbc
      by_contra hgt
      have hback : order.compare c a = .lt := by
        rw [order.compare_swap a c]
        cases hac : order.compare a c with
        | gt => rfl
        | lt | eq => exact absurd (by rw [hac]; rfl) hgt
      rcases torn_of_circle ⟨hab, hbc, hback⟩ with htorn | htorn | htorn
      · exact h a a.2 b b.2 c c.2 htorn
      · exact h b b.2 c c.2 a a.2 htorn
      · exact h c c.2 a a.2 b b.2 htorn

/-- Integers that a double can hold are not confused with each other. -/
theorem isPreorderOn_of_exact {rows : Set Row}
    (h : ∀ row ∈ rows, ∀ key ∈ order.keys, ∀ d n, key.value? row = some d → d.toInt? = some n →
      n.natAbs ≤ 2 ^ 53) : order.IsPreorderOn rows := by
  rw [isPreorderOn_iff]
  intro a ha b _ c hc htorn
  obtain ⟨before, key, after, hkeys, -, hblurs, -⟩ := htorn.exists_key
  obtain ⟨x, y, z, hx, -, hz, m, n, hm, hn, hne, hy, hy'⟩ := hblurs
  have hkey : key ∈ order.keys := by
    rw [hkeys]
    exact List.mem_append_right _ List.mem_cons_self
  have hsame : Float8.ofInt m = Float8.ofInt n := Datum.float8.inj (hy.symm.trans hy')
  exact hne (Float8.ofInt_inj (h a ha key hkey x m hx hm) (h c hc key hkey z n hz hn) hsame)

/-- Two integers that are rounded to the same double equal it and not each other. -/
theorem not_isPreorderOn_of_rounded :
    ∃ order, ofSpecs [⟨"a", .float8⟩] [⟨"a", true, false⟩] = .ok order ∧
      order.compare [.int8 9007199254740993] [.float8 ⟨0x4340000000000000⟩] = .eq ∧
      order.compare [.float8 ⟨0x4340000000000000⟩] [.int8 9007199254740992] = .eq ∧
      order.compare [.int8 9007199254740993] [.int8 9007199254740992] = .gt ∧
      ¬order.IsPreorderOn Set.univ := by
  let order : RowOrder := ⟨[⟨0, true, false⟩], [⟨"a", true, false⟩]⟩
  have hfst : order.compare [.int8 9007199254740993] [.float8 ⟨0x4340000000000000⟩] = .eq := by
    decide +kernel
  have hsnd : order.compare [.float8 ⟨0x4340000000000000⟩] [.int8 9007199254740992] = .eq := by
    decide +kernel
  have hgt : order.compare [.int8 9007199254740993] [.int8 9007199254740992] = .gt := by decide
  refine ⟨order, by cbv, hfst, hsnd, hgt, fun h => ?_⟩
  have heq := h.eq_trans _ trivial _ trivial _ trivial hfst hsnd
  rw [heq] at hgt
  cases hgt

end RowOrder

end BlockQuery
