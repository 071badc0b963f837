import Mathlib.Tactic

/-!
# Steps that may fail

A chain of steps ends well if every step does.
-/

namespace BlockQuery

theorem exists_of_forall₂ {α β : Type} {R : α → β → Prop} {xs : List α} {ys : List β}
    (h : List.Forall₂ R xs ys) : ∀ x ∈ xs, ∃ y ∈ ys, R x y := by
  induction h with
  | nil => exact fun x hx => absurd hx List.not_mem_nil
  | @cons x y xs ys hxy _ ih =>
    refine List.forall_mem_cons.mpr ⟨⟨y, List.mem_cons_self, hxy⟩, fun z hz => ?_⟩
    obtain ⟨w, hw, hzw⟩ := ih z hz
    exact ⟨w, List.mem_cons_of_mem y hw, hzw⟩

namespace Except

variable {ε α β : Type}

theorem bind_eq_ok {x : Except ε α} {f : α → Except ε β} {b : β} :
    x >>= f = .ok b ↔ ∃ a, x = .ok a ∧ f a = .ok b := by
  cases x with
  | error e =>
    constructor
    · intro h
      cases h
    · rintro ⟨_, h, _⟩
      cases h
  | ok a =>
    constructor
    · exact fun h => ⟨a, rfl, h⟩
    · rintro ⟨_, h, hb⟩
      cases h
      exact hb

/-- Steps that end well just if others do and a condition holds. -/
theorem bind_eq_ok_and_iff {x y : Except ε α} {f g : α → Except ε β} {b : β} {p q : Prop}
    (hx : ∀ a, x = .ok a ↔ p ∧ y = .ok a) (hf : ∀ a, f a = .ok b ↔ q ∧ g a = .ok b) :
    x >>= f = .ok b ↔ (p ∧ q) ∧ y >>= g = .ok b := by
  simp only [bind_eq_ok, hx, hf]
  constructor
  · rintro ⟨a, ⟨hp, ha⟩, hq, hb⟩
    exact ⟨⟨hp, hq⟩, a, ha, hb⟩
  · rintro ⟨⟨hp, hq⟩, a, ha, hb⟩
    exact ⟨a, ⟨hp, ha⟩, hq, hb⟩

theorem bind_eq_ok_iff_and {x y : Except ε α} {f : α → Except ε β} {b : β} {p : Prop}
    (hx : ∀ a, x = .ok a ↔ p ∧ y = .ok a) : x >>= f = .ok b ↔ p ∧ y >>= f = .ok b := by
  simpa using bind_eq_ok_and_iff (q := True) hx (f := f) (g := f) (b := b) (by simp)

theorem map_eq_ok {x : Except ε α} {f : α → β} {b : β} :
    x.map f = .ok b ↔ ∃ a, x = .ok a ∧ f a = b := by
  cases x with
  | error e =>
    constructor
    · intro h
      cases h
    · rintro ⟨_, h, _⟩
      cases h
  | ok a =>
    constructor
    · intro h
      cases h
      exact ⟨a, rfl, rfl⟩
    · rintro ⟨_, h, rfl⟩
      cases h
      rfl

theorem map_eq_error {x : Except ε α} {f : α → β} {e : ε} :
    x.map f = .error e ↔ x = .error e := by
  cases x with
  | error e' =>
    constructor
    · intro h
      cases h
      rfl
    · intro h
      cases h
      rfl
  | ok a =>
    constructor
    · intro h
      cases h
    · intro h
      cases h

theorem toOption_eq_some {x : Except ε α} {a : α} : x.toOption = some a ↔ x = .ok a := by
  cases x with
  | error e =>
    constructor
    · intro h
      cases h
    · intro h
      cases h
  | ok b =>
    constructor
    · intro h
      cases h
      rfl
    · intro h
      cases h
      rfl

theorem mapError_eq_ok {ε' : Type} {x : Except ε α} {f : ε → ε'} {a : α} :
    x.mapError f = .ok a ↔ x = .ok a := by
  cases x with
  | error e =>
    constructor
    · intro h
      cases h
    · intro h
      cases h
  | ok b =>
    constructor
    · intro h
      cases h
      rfl
    · intro h
      cases h
      rfl

/-- A check in front of the other steps. -/
theorem guard_eq_ok {c : Prop} [Decidable c] {e : ε} {x : Except ε α} {a : α} :
    (if c then throw e else x) = .ok a ↔ ¬c ∧ x = .ok a := by
  by_cases hc : c
  · rw [if_pos hc]
    constructor
    · intro h
      cases h
    · exact fun h => absurd hc h.1
  · rw [if_neg hc]
    exact ⟨fun h => ⟨hc, h⟩, fun h => h.2⟩

theorem bind_eq_error {x : Except ε α} {f : α → Except ε β} {e : ε} :
    x >>= f = .error e ↔ x = .error e ∨ ∃ a, x = .ok a ∧ f a = .error e := by
  cases x with
  | error e' =>
    constructor
    · intro h
      cases h
      exact Or.inl rfl
    · rintro (h | ⟨_, h, _⟩)
      · cases h
        rfl
      · cases h
  | ok a =>
    constructor
    · exact fun h => Or.inr ⟨a, rfl, h⟩
    · rintro (h | ⟨_, h, he⟩)
      · cases h
      · cases h
        exact he

theorem guard_eq_error {c : Prop} [Decidable c] {e fault : ε} {x : Except ε α} :
    (if c then throw e else x) = .error fault ↔ c ∧ e = fault ∨ ¬c ∧ x = .error fault := by
  by_cases hc : c
  · rw [if_pos hc]
    constructor
    · intro h
      cases h
      exact Or.inl ⟨hc, rfl⟩
    · rintro (⟨-, rfl⟩ | ⟨hnot, -⟩)
      · rfl
      · exact absurd hc hnot
  · rw [if_neg hc]
    constructor
    · exact fun h => Or.inr ⟨hc, h⟩
    · rintro (⟨h, -⟩ | ⟨-, h⟩)
      · exact absurd h hc
      · exact h

theorem mapM_of_forall {f : α → Except ε β} {g : α → β} {xs : List α}
    (h : ∀ x ∈ xs, f x = .ok (g x)) : xs.mapM f = .ok (xs.map g) := by
  induction xs with
  | nil => rfl
  | cons x xs ih =>
    obtain ⟨hx, hxs⟩ := List.forall_mem_cons.mp h
    rw [List.mapM_cons, hx, ih hxs, List.map_cons]
    rfl

theorem forall₂_mapM {f : α → Except ε β} {xs : List α} {ys : List β}
    (h : xs.mapM f = .ok ys) : List.Forall₂ (fun x y => f x = .ok y) xs ys := by
  induction xs generalizing ys with
  | nil =>
    cases h
    exact List.Forall₂.nil
  | cons x xs ih =>
    rw [List.mapM_cons] at h
    obtain ⟨y, hy, h⟩ := bind_eq_ok.mp h
    obtain ⟨rest, hrest, h⟩ := bind_eq_ok.mp h
    cases h
    exact List.Forall₂.cons hy (ih hrest)

theorem exists_of_mapM {f : α → Except ε β} {xs : List α} {ys : List β}
    (h : xs.mapM f = .ok ys) : ∀ x ∈ xs, ∃ y ∈ ys, f x = .ok y :=
  exists_of_forall₂ (forall₂_mapM h)

theorem exists_mapM {f : α → Except ε β} {xs : List α} (h : ∀ x ∈ xs, ∃ y, f x = .ok y) :
    ∃ ys, xs.mapM f = .ok ys := by
  induction xs with
  | nil => exact ⟨[], rfl⟩
  | cons x xs ih =>
    obtain ⟨⟨y, hy⟩, hrest⟩ := List.forall_mem_cons.mp h
    obtain ⟨ys, hys⟩ := ih hrest
    refine ⟨y :: ys, ?_⟩
    rw [List.mapM_cons, hy, hys]
    rfl

theorem length_mapM {f : α → Except ε β} {xs : List α} {ys : List β}
    (h : xs.mapM f = .ok ys) : ys.length = xs.length :=
  (forall₂_mapM h).length_eq.symm

/-- Two results for each element of a list, if all are there. -/
theorem forall₂_of_mapM {ε' γ : Type} {f : α → Except ε β} {g : α → Except ε' γ} {R : β → γ → Prop}
    {xs : List α} {ys : List β} {zs : List γ} (hf : xs.mapM f = .ok ys) (hg : xs.mapM g = .ok zs)
    (h : ∀ x ∈ xs, ∀ y z, f x = .ok y → g x = .ok z → R y z) : List.Forall₂ R ys zs := by
  induction xs generalizing ys zs with
  | nil =>
    cases hf
    cases hg
    exact List.Forall₂.nil
  | cons x xs ih =>
    rw [List.mapM_cons] at hf hg
    obtain ⟨y, hy, hf⟩ := bind_eq_ok.mp hf
    obtain ⟨ys, hys, hf⟩ := bind_eq_ok.mp hf
    obtain ⟨z, hz, hg⟩ := bind_eq_ok.mp hg
    obtain ⟨zs, hzs, hg⟩ := bind_eq_ok.mp hg
    cases hf
    cases hg
    obtain ⟨hfirst, hrest⟩ := List.forall_mem_cons.mp h
    exact List.Forall₂.cons (hfirst y z hy hz) (ih hys hzs hrest)

end Except

end BlockQuery
