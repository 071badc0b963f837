import BlockQuery.Catalog
import BlockQuery.Proofs.Except

/-!
# What is found in a catalog

A catalog is known by the tables that it finds and by its indexes.  Each change
that it accepts adds one entry, or alters one, and leaves all others.
-/

namespace BlockQuery.Catalog

variable {c changed : Catalog} {t : TableEntry} {x : IndexEntry} {name : String}

theorem getTable_eq_ok : c.getTable name = .ok t ↔ c.table? name = some t := by
  rw [getTable]
  cases c.table? name with
  | none => exact ⟨nofun, nofun⟩
  | some found =>
    constructor
    · intro h
      cases h
      rfl
    · intro h
      cases h
      rfl

theorem name_of_table? (h : c.table? name = some t) : t.name = name :=
  eq_of_beq (List.find?_some (p := fun t : TableEntry => t.name == name) h)

/-- A table that is added is found by its name, and no other one was. -/
theorem table?_of_addTable (h : c.addTable t = .ok changed) :
    c.table? t.name = none ∧ changed.indexes = c.indexes ∧
      ∀ name, changed.table? name = if name = t.name then some t else c.table? name := by
  rw [addTable] at h
  split at h
  next => cases h
  next =>
    split at h
    next => cases h
    next hthere =>
      cases h
      have hnone : c.table? t.name = none := by
        rwa [hasTable, Bool.not_eq_true, Option.isSome_eq_false_iff, Option.isNone_iff_eq_none]
          at hthere
      refine ⟨hnone, rfl, ?_⟩
      intro name
      rw [table?, List.find?_append]
      split
      next heq =>
        subst heq
        rw [table?] at hnone
        rw [hnone]
        simp
      next hne =>
        have hother : (t.name == name) = false := beq_eq_false_iff_ne.mpr (Ne.symm hne)
        simp [table?, hother]

theorem ne_of_addTable (h : c.addTable t = .ok changed) : changed ≠ c := by
  obtain ⟨hnone, -, htables⟩ := table?_of_addTable h
  rintro rfl
  have hsome := htables t.name
  rw [if_pos rfl, hnone] at hsome
  cases hsome

/-- No other table is added under the name of one that is there. -/
theorem addTable_again (h : c.addTable t = .ok changed) {other : TableEntry}
    (hname : other.name = t.name) : changed.addTable other = .error (.tableExists t.name) := by
  have hthere : changed.hasTable t.name = true := by
    rw [hasTable, (table?_of_addTable h).2.2, if_pos rfl, Option.isSome_some]
  rw [addTable] at h
  split at h
  next => cases h
  next hblank => rw [addTable, hname, if_neg hblank, if_pos hthere]

/-- New statistics change nothing else of a table. -/
theorem table?_of_updateStats {stats : TableStats} (h : c.updateStats name stats = .ok changed) :
    changed.indexes = c.indexes ∧ ∀ other, changed.table? other =
      (c.table? other).map fun t => if t.name == name then { t with stats := some stats } else t := by
  rw [updateStats] at h
  split at h
  next =>
    cases h
    refine ⟨rfl, ?_⟩
    intro other
    have hsame : ((fun t : TableEntry => t.name == other) ∘ fun t : TableEntry =>
        if t.name == name then { t with stats := some stats } else t) =
          fun t : TableEntry => t.name == other := by
      funext t
      dsimp only [Function.comp_apply]
      split <;> rfl
    rw [table?, List.find?_map, hsame]
    rfl
  next => cases h

theorem table?_of_updateStats_ne {stats : TableStats} (h : c.updateStats name stats = .ok changed)
    {other : String} (hne : other ≠ name) : changed.table? other = c.table? other := by
  rw [(table?_of_updateStats h).2]
  cases hfound : c.table? other with
  | none => rfl
  | some found =>
    rw [Option.map_some, if_neg]
    rw [name_of_table? hfound, beq_iff_eq]
    exact hne

theorem addIndex_eq_ok (h : c.addIndex x = .ok changed) :
    changed = { c with indexes := c.indexes ++ [x] } := by
  rw [addIndex] at h
  obtain ⟨-, h⟩ := Except.guard_eq_ok.mp h
  obtain ⟨t, -, h⟩ := Except.bind_eq_ok.mp h
  obtain ⟨-, h⟩ := Except.guard_eq_ok.mp h
  obtain ⟨-, h⟩ := Except.guard_eq_ok.mp h
  cases h
  rfl

theorem addIndex_of_has (hblank : Text.isAllBlank x.name = false) (ht : c.table? x.table = some t)
    (hhas : t.schema.has x.column = true) (hnew : c.hasIndex x.name = false) :
    c.addIndex x = .ok { c with indexes := c.indexes ++ [x] } := by
  rw [addIndex]
  refine Except.guard_eq_ok.mpr ⟨Bool.eq_false_iff.mp hblank, Except.bind_eq_ok.mpr ⟨t,
    getTable_eq_ok.mpr ht, Except.guard_eq_ok.mpr ⟨?_, Except.guard_eq_ok.mpr
      ⟨Bool.eq_false_iff.mp hnew, rfl⟩⟩⟩⟩
  rw [hhas]
  exact Bool.false_ne_true

theorem mem_indexesOf : x ∈ c.indexesOf name ↔ x ∈ c.indexes ∧ x.table = name := by
  rw [indexesOf, List.mem_mergeSort, List.mem_filter, beq_iff_eq]

theorem hasIndex_eq_false : c.hasIndex name = false ↔ ∀ x ∈ c.indexes, x.name ≠ name := by
  rw [hasIndex, index?, Option.isSome_eq_false_iff, Option.isNone_iff_eq_none, List.find?_eq_none]
  simp only [beq_iff_eq, ne_eq]

end BlockQuery.Catalog
