import Mathlib.Tactic
import BlockQuery.Catalog

/-!
# Overloads

The functions of a catalog are lists of overloads under normalised names.  Together they
are one map from a name and the types of arguments to a function: an overload is added to
it or removed from it, and a refused change leaves the lists as they were.
-/

namespace BlockQuery.Overloads

variable {o : Overloads} {key : String}

/-! ## Lists under names -/

theorem lookup_cons_eq_ite (k : String) (fs : List FunctionEntry) :
    ((key, fs) :: o).lookup k = if k = key then some fs else o.lookup k := by
  by_cases hk : k = key
  · subst hk
    simp
  · simp [List.lookup_cons, hk, beq_eq_false_iff_ne.mpr hk]

theorem lookup_enter (k : String) :
    (o.enter key).lookup k = if k = key then some ((o.lookup key).getD []) else o.lookup k := by
  rw [enter]
  split
  next hthere =>
    split
    next heq =>
      subst heq
      obtain ⟨overloads, hsome⟩ := Option.isSome_iff_exists.mp hthere
      rw [hsome, Option.getD_some]
    next => rfl
  next hmissing =>
    have hnone : o.lookup key = none := Option.not_isSome_iff_eq_none.mp hmissing
    rw [List.lookup_append, lookup_cons_eq_ite]
    split
    next heq =>
      subst heq
      simp [hnone]
    next hne => simp

theorem lookup_modify (f : List FunctionEntry → List FunctionEntry) (k : String) :
    (o.modify key f).lookup k = (o.lookup k).map fun fs => if k = key then f fs else fs := by
  induction o with
  | nil => rfl
  | cons p o ih =>
    obtain ⟨name, fs⟩ := p
    have hcons : modify ((name, fs) :: o) key f =
      (name, if name = key then f fs else fs) :: modify o key f := by
      by_cases hname : name = key <;> simp [modify, hname]
    rw [hcons, lookup_cons_eq_ite, lookup_cons_eq_ite]
    split
    next hk => simp [hk]
    next hk => exact ih

theorem lookup_filter_ne (k : String) :
    List.lookup k (o.filter (·.1 != key)) = if k = key then none else o.lookup k := by
  induction o with
  | nil => simp
  | cons p o ih =>
    obtain ⟨name, fs⟩ := p
    by_cases hname : name = key
    · subst hname
      rw [List.filter_cons_of_neg (by simp), ih, lookup_cons_eq_ite]
      split <;> rfl
    · rw [List.filter_cons_of_pos (by simpa using hname), lookup_cons_eq_ite, ih,
        lookup_cons_eq_ite]
      by_cases hk : k = name
      · subst hk
        simp [hname]
      · simp [hk]

/-- The overload with a normalised name and the types of its arguments. -/
def overload? (o : Overloads) (k : String × List DataType) : Option FunctionEntry :=
  (o.lookup k.1).bind (·.find? (·.arguments == k.2))

theorem overload?_enter : (o.enter key).overload? = o.overload? := by
  funext k
  rw [overload?, lookup_enter, overload?]
  split
  next heq =>
    rw [heq]
    cases o.lookup key <;> rfl
  next => rfl

theorem overload?_push {f : FunctionEntry} (hnew : o.overload? (f.key, f.arguments) = none) :
    (o.push f).overload? =
      Function.update o.overload? (f.key, f.arguments) (some f) := by
  have hentered : o.overload? = (o.enter f.key).overload? := overload?_enter.symm
  rw [hentered] at hnew ⊢
  funext k
  obtain ⟨name, arguments⟩ := k
  rw [overload?, Overloads.push, lookup_modify]
  by_cases hname : name = f.key
  · subst hname
    rw [overload?, lookup_enter, if_pos rfl, Option.bind_some] at hnew
    rw [lookup_enter, if_pos rfl, Option.map_some, if_pos rfl, Option.bind_some,
      List.find?_append]
    by_cases harguments : arguments = f.arguments
    · subst harguments
      rw [hnew, Function.update_self]
      simp
    · have hother : (f.arguments == arguments) = false :=
        beq_eq_false_iff_ne.mpr (Ne.symm harguments)
      rw [Function.update_of_ne (by simp [harguments]), overload?, lookup_enter, if_pos rfl,
        Option.bind_some]
      simp [hother]
  · rw [Function.update_of_ne (by simp [hname]), overload?]
    simp [hname]

theorem overload?_foldl_push {fs : List FunctionEntry} {o : Overloads}
    (hdistinct : (fs.map fun f => (f.key, f.arguments)).Nodup)
    (hnew : ∀ f ∈ fs, o.overload? (f.key, f.arguments) = none) (k : String × List DataType) :
    overload? (fs.foldl push o) k =
      (o.overload? k).or (fs.find? fun f => (f.key, f.arguments) = k) := by
  induction fs generalizing o with
  | nil =>
    rw [List.foldl_nil, List.find?_nil, Option.or_none]
  | cons f fs ih =>
    obtain ⟨hf, hfs⟩ := List.forall_mem_cons.mp hnew
    obtain ⟨hfresh, hdistinct⟩ := List.nodup_cons.mp hdistinct
    have hpush := overload?_push hf
    have hrest : ∀ g ∈ fs, (o.push f).overload? (g.key, g.arguments) = none := by
      intro g hg
      rw [hpush, Function.update_of_ne]
      · exact hfs g hg
      · exact fun heq => hfresh (List.mem_map.mpr ⟨g, hg, heq⟩)
    rw [List.foldl_cons, ih hdistinct hrest, hpush]
    by_cases hk : (f.key, f.arguments) = k
    · subst hk
      rw [Function.update_self, hf]
      simp
    · rw [Function.update_of_ne (Ne.symm hk)]
      simp [hk]

theorem register_eq (f : FunctionEntry) : o.register f =
    if (o.overload? (f.key, f.arguments)).isSome then (.error (.functionExists f.signature), o)
    else (.ok (), o.push f) := by
  have hfind : (o.enter f.key).find? f.name f.arguments = o.overload? (f.key, f.arguments) :=
    congrFun overload?_enter (f.key, f.arguments)
  rw [register, hfind]
  split
  next hthere =>
    -- an overload that is found is in a list, so that none was entered for it
    have hlist : (o.lookup f.key).isSome = true := by
      cases hlookup : o.lookup f.key with
      | none => simp [overload?, hlookup] at hthere
      | some overloads => rfl
    rw [enter, if_pos hlist]
  next => rfl

theorem modify_of_notMem {f : List FunctionEntry → List FunctionEntry}
    (h : key ∉ o.map (·.1)) : o.modify key f = o := by
  refine (List.map_congr_left ?_).trans o.map_id
  intro p hp
  apply if_neg
  intro heq
  exact h (eq_of_beq heq ▸ List.mem_map_of_mem hp)

theorem modify_eq_self (hkeys : (o.map (·.1)).Nodup) {fs : List FunctionEntry}
    (h : o.lookup key = some fs) : o.modify key (fun _ => fs) = o := by
  induction o with
  | nil => rfl
  | cons p o ih =>
    obtain ⟨name, gs⟩ := p
    obtain ⟨hfresh, hkeys⟩ := List.nodup_cons.mp hkeys
    rw [lookup_cons_eq_ite] at h
    by_cases hname : key = name
    · subst hname
      rw [if_pos rfl] at h
      cases h
      have hrest := modify_of_notMem (f := fun _ => fs) hfresh
      simpa [modify] using hrest
    · rw [if_neg hname] at h
      simpa [modify, Ne.symm hname] using ih hkeys h

theorem keys_enter (hkeys : (o.map (·.1)).Nodup) : ((o.enter key).map (·.1)).Nodup := by
  rw [enter]
  split
  next => exact hkeys
  next hmissing =>
    have hnone : o.lookup key = none := Option.not_isSome_iff_eq_none.mp hmissing
    rw [List.map_append, List.map_singleton]
    apply List.nodup_append.mpr ⟨hkeys, List.nodup_singleton _, ?_⟩
    intro name hname other hother heq
    obtain ⟨p, hp, rfl⟩ := List.mem_map.mp hname
    apply bne_iff_ne.mp (List.lookup_eq_none_iff.mp hnone p hp)
    rw [heq, List.mem_singleton.mp hother]

theorem keys_modify (f : List FunctionEntry → List FunctionEntry) :
    (o.modify key f).map (·.1) = o.map (·.1) := by
  rw [modify, List.map_map]
  apply List.map_congr_left
  intro p _
  dsimp only [Function.comp_apply]
  split <;> rfl

theorem keys_push (f : FunctionEntry) (hkeys : (o.map (·.1)).Nodup) :
    ((o.push f).map (·.1)).Nodup := by
  rw [push, keys_modify]
  exact keys_enter hkeys

theorem overload?_modify_filter {overloads : List FunctionEntry} {arguments : List DataType}
    (hthere : o.lookup key = some overloads) :
    overload? (o.modify key fun _ => overloads.filter (·.arguments != arguments)) =
      Function.update o.overload? (key, arguments) none := by
  funext k
  obtain ⟨other, types⟩ := k
  rw [overload?, lookup_modify]
  by_cases hother : other = key
  · subst hother
    rw [hthere, Option.map_some, if_pos rfl, Option.bind_some]
    by_cases htypes : types = arguments
    · subst htypes
      rw [Function.update_self, List.find?_eq_none]
      simp
    · rw [Function.update_of_ne (by simp [htypes]), overload?, hthere, Option.bind_some,
        List.find?_filter]
      congr 1
      funext f
      by_cases hf : f.arguments = types
      · simp [hf, htypes]
      · simp [hf]
  · rw [Function.update_of_ne (by simp [hother]), overload?]
    simp [hother]

theorem keys_foldl_push {fs : List FunctionEntry} {o : Overloads} (hkeys : (o.map (·.1)).Nodup) :
    ((fs.foldl push o).map (·.1)).Nodup := by
  induction fs generalizing o with
  | nil => exact hkeys
  | cons f fs ih => exact ih (keys_push f hkeys)

/-- An overload is removed if there is one, and nothing has changed if there is none. -/
theorem unregister_cases (hkeys : (o.map (·.1)).Nodup) (name : String)
    (arguments : List DataType) :
    (o.overload? (functionKey name, arguments) = none ∧ o.unregister name arguments =
        (.error (.noSuchFunction (signature name arguments)), o)) ∨
      (o.overload? (functionKey name, arguments)).isSome ∧ ∃ changed,
        o.unregister name arguments = (.ok (), changed) ∧ (changed.map (·.1)).Nodup ∧
          changed.overload? =
            Function.update o.overload? (functionKey name, arguments) none := by
  rw [unregister]
  dsimp only
  split
  next hmissing => exact Or.inl ⟨by simp [overload?, hmissing], rfl⟩
  next overloads hthere =>
    have hfound : o.overload? (functionKey name, arguments) =
        overloads.find? (·.arguments == arguments) := by
      rw [overload?, hthere, Option.bind_some]
    split
    next hall =>
      -- no overload has been filtered out, so that the list is put back as it was
      have hnone : ∀ f ∈ overloads, (f.arguments != arguments) = true :=
        List.length_filter_eq_length_iff.mp hall
      rw [List.filter_eq_self.mpr hnone, modify_eq_self hkeys hthere]
      refine Or.inl ⟨?_, rfl⟩
      rw [hfound, List.find?_eq_none]
      exact fun f hf heq => bne_iff_ne.mp (hnone f hf) (eq_of_beq heq)
    next hsome =>
      have hfind : (o.overload? (functionKey name, arguments)).isSome := by
        rw [hfound, List.find?_isSome]
        by_contra hnone
        apply hsome
        apply List.length_filter_eq_length_iff.mpr
        intro f hf
        apply bne_iff_ne.mpr
        exact fun heq => hnone ⟨f, hf, beq_iff_eq.mpr heq⟩
      have hremoved := @overload?_modify_filter o _ overloads arguments hthere
      split
      next hempty =>
        refine Or.inr ⟨hfind, _, rfl, ?_, ?_⟩
        · have hsame := @keys_modify o (functionKey name)
            fun _ => overloads.filter (·.arguments != arguments)
          rw [← hsame] at hkeys
          exact hkeys.sublist (List.filter_sublist.map _)
        · rw [← hremoved]
          funext k
          rw [overload?, lookup_filter_ne, overload?]
          split
          next heq =>
            rw [heq, lookup_modify, hthere, Option.map_some, if_pos rfl, Option.bind_some,
              List.isEmpty_iff.mp hempty]
            rfl
          next => rfl
      next =>
        refine Or.inr ⟨hfind, _, rfl, ?_, hremoved⟩
        rw [keys_modify]
        exact hkeys

end BlockQuery.Overloads
