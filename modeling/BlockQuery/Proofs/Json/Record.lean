import BlockQuery.Json.Record
import Mathlib.Data.Int.Notation
import Mathlib.Data.List.Nodup
import Mathlib.Data.Nat.Notation

/-!
# Documents of records

A document that is written member by member has a value in every part and names
no member twice.  The fields of its records are found under their names again,
and so are the kinds of tagged records.
-/

namespace BlockQuery.Json

/-! ## Well-formed documents -/

/-- Whether every part of a document has a value and no object names a member twice. -/
structure Proper (v : Json) : Prop where
  readable : v.isReadable = true
  merged_eq : v.merged = v

theorem haveReadable_iff {members : List (String × Json)} :
    haveReadable members = true ↔ ∀ p ∈ members, p.2.isReadable = true := by
  induction members with
  | nil => simp [haveReadable]
  | cons p members ih =>
    rw [haveReadable, Bool.and_eq_true, ih, List.forall_mem_cons]

theorem areReadable_iff {items : List Json} :
    areReadable items = true ↔ ∀ v ∈ items, v.isReadable = true := by
  induction items with
  | nil => simp [areReadable]
  | cons v items ih => rw [areReadable, Bool.and_eq_true, ih, List.forall_mem_cons]

theorem mergedMembers_of_forall {members : List (String × Json)}
    (h : ∀ p ∈ members, p.2.merged = p.2) : mergedMembers members = members := by
  induction members with
  | nil => rfl
  | cons p members ih =>
    obtain ⟨hp, hmembers⟩ := List.forall_mem_cons.mp h
    rw [mergedMembers, hp, ih hmembers]

theorem mergedItems_of_forall {items : List Json} (h : ∀ v ∈ items, v.merged = v) :
    mergedItems items = items := by
  induction items with
  | nil => rfl
  | cons v items ih =>
    obtain ⟨hv, hitems⟩ := List.forall_mem_cons.mp h
    rw [mergedItems, hv, ih hitems]

theorem lastOfEach_of_nodup {α : Type} {members : List (String × α)}
    (h : (members.map Prod.fst).Nodup) : lastOfEach members = members := by
  induction members with
  | nil => rfl
  | cons p members ih =>
    rw [List.map_cons, List.nodup_cons] at h
    have hany : members.any (·.1 == p.1) = false := by
      rw [List.any_eq_false]
      intro q hq heq
      exact h.1 (List.mem_map.mpr ⟨q, hq, eq_of_beq heq⟩)
    rw [lastOfEach, hany, ih h.2]
    rfl

theorem proper_object {members : List (String × Json)} (hnames : (members.map Prod.fst).Nodup)
    (h : ∀ p ∈ members, p.2.Proper) : (object members).Proper where
  readable := by
    rw [isReadable]
    exact haveReadable_iff.mpr fun p hp => (h p hp).readable
  merged_eq := by
    rw [merged, mergedMembers_of_forall fun p hp => (h p hp).merged_eq, lastOfEach_of_nodup hnames]

theorem proper_array {items : List Json} (h : ∀ v ∈ items, v.Proper) : (array items).Proper where
  readable := by
    rw [isReadable]
    exact areReadable_iff.mpr fun v hv => (h v hv).readable
  merged_eq := by rw [merged, mergedItems_of_forall fun v hv => (h v hv).merged_eq]

theorem proper_text (s : String) : (text s).Proper := ⟨rfl, rfl⟩

theorem proper_bool (b : Bool) : (bool b).Proper := ⟨rfl, rfl⟩

theorem proper_whole (n : ℤ) : (whole n).Proper := ⟨rfl, rfl⟩

theorem proper_ofOption {α : Type} {f : α → Json} (h : ∀ a, (f a).Proper) (o : Option α) :
    (ofOption f o).Proper := by
  cases o with
  | none => exact ⟨rfl, rfl⟩
  | some a => exact h a

theorem proper_array_map {α : Type} {f : α → Json} (h : ∀ a, (f a).Proper) (as : List α) :
    (array (as.map f)).Proper :=
  proper_array (List.forall_mem_map.mpr fun a _ => h a)

/-! ## Depths -/

/-- What is in an object is nested in fewer levels than the object. -/
theorem depth_object_le {members : List (String × Json)} {n : ℕ}
    (h : (object members).depth ≤ n) : ∃ m, n = m + 1 ∧ ∀ p ∈ members, p.2.depth ≤ m := by
  rw [depth] at h
  obtain ⟨m, rfl⟩ : ∃ m, n = m + 1 := ⟨n - 1, by omega⟩
  refine ⟨m, rfl, ?_⟩
  have hmembers : depthMembers members ≤ m := Nat.le_of_succ_le_succ h
  clear h
  induction members with
  | nil => exact fun _ hp => (List.not_mem_nil hp).elim
  | cons p members ih =>
    rw [depthMembers, Nat.max_le] at hmembers
    exact List.forall_mem_cons.mpr ⟨hmembers.1, ih hmembers.2⟩

/-! ## Fields -/

theorem valuesOf_cons (p : String × Json) (members : List (String × Json)) (name : String) :
    valuesOf (p :: members) name =
      if p.1 = name then p.2 :: valuesOf members name else valuesOf members name := by
  by_cases hp : p.1 = name
  · simp [valuesOf, hp]
  · simp [valuesOf, hp]

theorem valuesOf_of_notMem {members : List (String × Json)} {name : String}
    (h : name ∉ members.map Prod.fst) : valuesOf members name = [] := by
  induction members with
  | nil => rfl
  | cons p members ih =>
    rw [List.map_cons, List.mem_cons, not_or] at h
    rw [valuesOf_cons, if_neg fun heq => h.1 heq.symm, ih h.2]

theorem valuesOf_of_mem {members : List (String × Json)} (hnames : (members.map Prod.fst).Nodup)
    {name : String} {v : Json} (h : (name, v) ∈ members) : valuesOf members name = [v] := by
  induction members with
  | nil => cases h
  | cons p members ih =>
    rw [List.map_cons, List.nodup_cons] at hnames
    rw [valuesOf_cons]
    rcases List.mem_cons.mp h with rfl | h
    · rw [if_pos rfl, valuesOf_of_notMem hnames.1]
    · have hne : p.1 ≠ name := by
        rintro rfl
        exact hnames.1 (List.mem_map.mpr ⟨_, h, rfl⟩)
      rw [if_neg hne, ih hnames.2 h]

/-- The fields of a record are found under their names. -/
theorem fields?_named {members : List (String × Json)} (hnames : (members.map Prod.fst).Nodup) :
    Record.fields? (members.map Prod.fst) (.named members) =
      some (members.map fun p => some p.2) := by
  have hfields : ∀ ps : List (String × Json), (∀ p ∈ ps, p ∈ members) →
      Record.fields? (ps.map Prod.fst) (.named members) = some (ps.map fun p => some p.2) := by
    intro ps hps
    induction ps with
    | nil => rfl
    | cons p ps ih =>
      obtain ⟨hp, hps⟩ := List.forall_mem_cons.mp hps
      have hrest := ih hps
      rw [Record.fields?] at hrest ⊢
      rw [List.map_cons, List.mapM_cons, hrest, valuesOf_of_mem hnames hp]
      rfl
  exact hfields members fun _ hp => hp

/-- The kind of a tagged record is found, and the other members are its fields. -/
theorem tagged?_object {setting : Setting} {kinds : List String} {kind : String}
    {members : List (String × Json)} (hkind : kind ∈ kinds)
    (hnames : ("kind" :: members.map Prod.fst).Nodup)
    (hread : (object (("kind", text kind) :: members)).isReadable = true) :
    (object (("kind", text kind) :: members)).tagged? setting kinds =
      some (kind, .named members) := by
  have hrest : members.filter (·.1 != "kind") = members := by
    rw [List.filter_eq_self]
    intro p hp
    rw [bne_iff_ne]
    intro heq
    exact (List.nodup_cons.mp hnames).1 (heq ▸ List.mem_map_of_mem hp)
  have hall : ((("kind", text kind) :: members).map Prod.fst).Nodup := hnames
  have htag : valuesOf (("kind", text kind) :: members) "kind" = [text kind] :=
    valuesOf_of_mem hall List.mem_cons_self
  have hname : tagName? setting kinds (text kind) = some kind :=
    if_pos (List.contains_iff_mem.mpr hkind)
  have hfilter : (("kind", text kind) :: members).filter (·.1 != "kind") = members := by
    rw [List.filter_cons_of_neg (by simp), hrest]
  rw [tagged?, if_pos (Or.inr hread), kindAndRest?, htag]
  dsimp only
  rw [hname, hfilter]
  rfl

/-! ## Members of merged documents -/

theorem valuesOf_mergedMembers (members : List (String × Json)) (name : String) :
    valuesOf (mergedMembers members) name = (valuesOf members name).map merged := by
  induction members with
  | nil => rfl
  | cons p members ih =>
    rw [mergedMembers, valuesOf_cons, valuesOf_cons, ih]
    split
    · rfl
    · rfl

/-- Of several members with one name the last one stays. -/
theorem getLast?_valuesOf_lastOfEach (members : List (String × Json)) (name : String) :
    (valuesOf (lastOfEach members) name).getLast? = (valuesOf members name).getLast? := by
  induction members with
  | nil => rfl
  | cons p members ih =>
    rw [lastOfEach]
    by_cases hlater : members.any (·.1 == p.1) = true
    · rw [if_pos hlater, ih, valuesOf_cons]
      split
      next hp =>
        -- A later member has the name, so that this one is not the last.
        obtain ⟨q, hq, heq⟩ := List.any_eq_true.mp hlater
        have hmem : q.2 ∈ valuesOf members name :=
          List.mem_map.mpr ⟨q, List.mem_filter.mpr ⟨hq, by rw [← hp]; exact heq⟩, rfl⟩
        rw [List.getLast?_cons_of_ne_nil (List.ne_nil_of_mem hmem)]
      next => rfl
    · rw [if_neg hlater, valuesOf_cons, valuesOf_cons]
      split
      · rw [List.getLast?_cons, List.getLast?_cons, ih]
      · exact ih

/-- A merged document has the last value of each name, merged as well. -/
theorem member?_merged (v : Json) (name : String) :
    v.merged.member? name = (v.member? name).map merged := by
  cases v with
  | object members =>
    rw [merged, member?, member?, getLast?_valuesOf_lastOfEach, valuesOf_mergedMembers,
      List.getLast?_map]
  | array items => rw [merged]; rfl
  | _ => rfl

theorem toUInt64?_merged (v : Json) : v.merged.toUInt64? = v.toUInt64? := by
  cases v with
  | object members => rw [merged]; rfl
  | array items => rw [merged]; rfl
  | _ => rfl

/-! ## Values of fields -/

theorem toUInt32?_whole (n : UInt32) : (whole n.toNat).toUInt32? = some n := by
  have hlt := n.toNat_lt
  rw [toUInt32?, toWhole?, if_pos (by omega), Option.map_some, Int.toNat_natCast,
    UInt32.ofNat_toNat]

theorem toUInt64?_whole (n : UInt64) : (whole n.toNat).toUInt64? = some n := by
  have hlt := n.toNat_lt
  rw [toUInt64?, toWhole?, if_pos (by omega), Option.map_some, Int.toNat_natCast,
    UInt64.ofNat_toNat]

theorem toOption?_ofOption {α : Type} {f : Json → Option α} {g : α → Json}
    (hnull : ∀ a, (g a).isNull = false) {o : Option α} (h : ∀ a ∈ o, f (g a) = some a) :
    toOption? f (some (ofOption g o)) = some o := by
  cases o with
  | none => rfl
  | some a =>
    have hsome : toOption? f (some (g a)) = (f (g a)).map some := by
      have ha := hnull a
      cases hg : g a with
      | null =>
        rw [hg] at ha
        cases ha
      | _ => rfl
    rw [ofOption, hsome, h a rfl]
    rfl

theorem toListOf?_map {α : Type} {f : Json → Option α} {g : α → Json} {as : List α}
    (h : ∀ a ∈ as, f (g a) = some a) : (array (as.map g)).toListOf? f = some as := by
  rw [toListOf?]
  induction as with
  | nil => rfl
  | cons a as ih =>
    obtain ⟨ha, has⟩ := List.forall_mem_cons.mp h
    rw [List.map_cons, List.mapM_cons, ha, ih has]
    rfl

end BlockQuery.Json
