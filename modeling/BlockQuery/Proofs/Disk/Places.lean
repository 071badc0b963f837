import BlockQuery.Proofs.Disk.Directories

/-!
# Where paths lead

The names of a path are taken one after another, so that a path that leads
somewhere leads to the same place on every disk.  Making directories adds
nothing but directories at places that the path passes.
-/

namespace BlockQuery

/-! ## The place that a path names -/

namespace Place

/-- The place that a name leads to. -/
def enter (place : Place) (name : String) : Place :=
  if name.isEmpty || name == "." then place
  else if name == ".." then place.above
  else place ++ [name]

/-- The place that names lead to. -/
def along (place : Place) (names : List String) : Place := names.foldl enter place

theorem along_append (place : Place) (names more : List String) :
    place.along (names ++ more) = (place.along names).along more := List.foldl_append

theorem enter_of_isName {place : Place} {name : String} (h : Path.IsName name) :
    place.enter name = place ++ [name] := by
  simp [enter, h.ne_empty, h.ne_dot, h.ne_dots]

theorem enter_of_isBlank {place : Place} {name : String} (h : Path.IsBlank name) :
    place.enter name = place := if_pos (Disk.isStay_of_isBlank h)

theorem along_blanks {place : Place} {blanks : List String}
    (h : ∀ name ∈ blanks, Path.IsBlank name) : place.along blanks = place := by
  induction blanks with
  | nil => rfl
  | cons name blanks ih =>
    obtain ⟨hname, hblanks⟩ := List.forall_mem_cons.mp h
    rw [along, List.foldl_cons, enter_of_isBlank hname]
    exact ih hblanks

theorem enter_ne_nil {place : Place} (h : place ≠ []) (name : String) : place.enter name ≠ [] := by
  rw [enter]
  split
  · exact h
  · split
    · rcases place with _ | ⟨x, _ | ⟨y, rest⟩⟩
      · exact absurd rfl h
      · rw [above]
        split <;> exact List.cons_ne_nil _ _
      · exact List.cons_ne_nil _ _
    · exact List.append_ne_nil_of_right_ne_nil _ (List.cons_ne_nil _ _)

theorem along_ne_nil {place : Place} (h : place ≠ []) (names : List String) :
    place.along names ≠ [] := by
  induction names generalizing place with
  | nil => exact h
  | cons name names ih => exact ih (enter_ne_nil h name)

/-- Names below the starting point come from the names that were followed. -/
theorem mem_tail_along {place : Place} {names : List String} {x : String}
    (h : x ∈ (place.along names).tail) : x ∈ place.tail ∨ x ∈ names := by
  induction names generalizing place with
  | nil => exact Or.inl h
  | cons name names ih =>
    rcases ih h with hplace | hnames
    · rw [enter] at hplace
      split at hplace
      · exact Or.inl hplace
      · split at hplace
        · left
          rcases place with _ | ⟨y, _ | ⟨z, rest⟩⟩
          · cases hplace
          · rw [above] at hplace
            split at hplace <;> cases hplace
          · exact List.mem_of_mem_dropLast (show x ∈ (z :: rest).dropLast from hplace)
        · rcases place with _ | ⟨y, rest⟩
          · cases hplace
          · rcases List.mem_append.mp hplace with hrest | hname
            · exact Or.inl hrest
            · exact Or.inr (List.mem_cons.mpr (Or.inl (List.mem_singleton.mp hname)))
    · exact Or.inr (List.mem_cons_of_mem name hnames)

end Place

namespace Disk

/-- Whatever is on a disk, names lead to the same place, if anywhere. -/
theorem eq_along_of_follow {disk : Disk} {place r : Place} {names : List String}
    (h : disk.follow place names = .ok r) : r = place.along names := by
  induction names generalizing place with
  | nil => exact (Except.ok.inj h).symm
  | cons name names ih =>
    rw [follow_cons_of_directory (isDirectory_of_follow_cons h)] at h
    rw [Place.along, List.foldl_cons, Place.enter]
    split at h
    next hstay => rw [if_pos hstay]; exact ih h
    next hstay =>
      rw [if_neg hstay]
      split at h
      next hup => rw [if_pos hup]; exact ih h
      next hup =>
        rw [if_neg hup]
        split at h
        · cases h
        · exact ih h

end Disk

namespace Path

/-- The place that a path names. -/
def place (path : String) : Place := (start path).1.along (start path).2

/-- The places that a path passes, up to its end. -/
def passed (path : String) : List Place := (start path).2.inits.map (start path).1.along

theorem mem_passed_of_prefix {path : String} {names : List String} (h : names <+: (start path).2) :
    (start path).1.along names ∈ passed path :=
  List.mem_map_of_mem ((List.mem_inits names (start path).2).mpr h)

theorem start_ne_nil (path : String) : (start path).1 ≠ [] := by
  rw [start]
  split
  · exact List.cons_ne_nil _ _
  · split <;> exact List.cons_ne_nil _ _
  · exact List.cons_ne_nil _ _

/-- Nothing that is followed is no name of the path. -/
theorem start_subset_split (path : String) : (start path).2 ⊆ split path := by
  rw [start]
  split
  next names hsplit => exact hsplit ▸ List.subset_cons_self _ _
  next name names _ hsplit =>
    split
    · exact hsplit ▸ List.subset_cons_self _ _
    · exact hsplit ▸ List.Subset.refl _
  · exact List.nil_subset _

theorem tail_start (path : String) : (start path).1.tail = [] := by
  rw [start]
  split
  · rfl
  · split <;> rfl
  · rfl

theorem place_ne_nil (path : String) : place path ≠ [] :=
  Place.along_ne_nil (start_ne_nil path) _

/-- A name below the start of a place that a path passes is a name of the path. -/
theorem mem_split_of_mem_passed {path name : String} {q : Place} (hq : q ∈ passed path)
    (h : name ∈ q.tail) : name ∈ split path := by
  obtain ⟨names, hnames, rfl⟩ := List.mem_map.mp hq
  rcases Place.mem_tail_along h with hstart | hname
  · rw [tail_start] at hstart
    cases hstart
  · exact start_subset_split path (((List.mem_inits names _).mp hnames).subset hname)

/-! ### Joined paths -/

theorem start_stem (dir : String) : ∃ blanks : List String, (∀ name ∈ blanks, IsBlank name) ∧
    start dir = ((start (String.ofList (stem dir))).1,
      (start (String.ofList (stem dir))).2 ++ blanks) := by
  rcases split_dir dir with h | h
  · refine ⟨[], List.forall_mem_nil _, ?_⟩
    exact start_of_split (h.trans (List.append_nil _).symm)
  · refine ⟨[""], ?_, start_of_split h⟩
    intro name hname
    exact Or.inl (List.mem_singleton.mp hname)

theorem start_join {dir child : String} (hdir : dir ≠ "") (hchild : IsName child) :
    start (join dir child) = ((start (String.ofList (stem dir))).1,
      (start (String.ofList (stem dir))).2 ++ [child]) := start_of_split (split_join hdir hchild)

theorem join_ne_empty {dir child : String} (hdir : dir ≠ "") (hchild : IsName child) :
    join dir child ≠ "" := by
  rw [join_eq hdir hchild, ne_eq, String.ofList_eq_empty_iff]
  exact List.append_ne_nil_of_right_ne_nil _ (List.cons_ne_nil _ _)

theorem join_empty (child : String) : join "" child = child := by
  rw [join]
  exact if_pos (Bool.or_true _)

/-- The names of a joined path are those of the directory's path and the child. -/
theorem mem_split_join {dir child name : String} (hchild : IsName child)
    (h : name ∈ split (join dir child)) : name ∈ split dir ∨ name = child := by
  rcases eq_or_ne dir "" with rfl | hdir
  · rw [join_empty, split_child hchild] at h
    exact Or.inr (List.mem_singleton.mp h)
  · rw [split_join hdir hchild] at h
    rcases List.mem_append.mp h with hstem | hlast
    · rcases split_dir dir with hsplit | hsplit
      · exact Or.inl (hsplit ▸ hstem)
      · exact Or.inl (hsplit ▸ List.mem_append_left _ hstem)
    · exact Or.inr (List.mem_singleton.mp hlast)

theorem place_join {dir child : String} (hdir : dir ≠ "") (hchild : IsName child) :
    place (join dir child) = place dir ++ [child] := by
  obtain ⟨blanks, hblanks, hstart⟩ := start_stem dir
  rw [place, place, start_join hdir hchild, hstart, Place.along_append, Place.along_append,
    Place.along_blanks hblanks]
  exact Place.enter_of_isName hchild

theorem place_child {child : String} (hchild : IsName child) :
    place child = if child.startsWith "$" then [child] else [".", child] := by
  rw [place, start_of_split_cons (split_child hchild) hchild.ne_empty]
  split
  · rfl
  · exact Place.enter_of_isName hchild

/-- Joined to the same directory, names that differ lead to places that differ. -/
theorem place_join_inj {dir a b : String} (ha : IsName a) (hb : IsName b)
    (h : place (join dir a) = place (join dir b)) : a = b := by
  rcases eq_or_ne dir "" with rfl | hdir
  · rw [join_empty, join_empty, place_child ha, place_child hb] at h
    split at h <;> split at h
    · exact List.singleton_inj.mp h
    · cases h
    · cases h
    · exact List.singleton_inj.mp (List.cons.inj h).2
  · rw [place_join hdir ha, place_join hdir hb] at h
    exact List.singleton_inj.mp (List.append_cancel_left h)

/-- A joined path passes what the directory's path does, and then ends. -/
theorem along_join {dir child : String} (hdir : dir ≠ "") (hchild : IsName child)
    {names : List String} (h : names <+: (start (join dir child)).2) :
    (start (join dir child)).1.along names ∈ passed dir ∨ names = (start (join dir child)).2 := by
  obtain ⟨blanks, -, hstart⟩ := start_stem dir
  rw [start_join hdir hchild] at *
  rcases List.prefix_concat_iff.mp h with rfl | hstarts
  · exact Or.inr rfl
  · left
    have hpassed : (start dir).1.along names ∈ passed dir := by
      apply mem_passed_of_prefix
      rw [hstart]
      exact hstarts.trans (List.prefix_append _ _)
    rwa [hstart] at hpassed

end Path

/-! ## What is made and taken away -/

namespace Disk

variable {disk : Disk} {path : String}

theorem eq_place_of_resolve {place : Place} (h : disk.resolve path = .ok place) :
    place = Path.place path := eq_along_of_follow (resolve_eq_ok.mp h).2

/-- What is new after directories were made is a directory that the path passes. -/
theorem made_of_createDirectories {q : Place} (hq : disk.get? q = none) :
    (disk.createDirectories path).2.get? q = none ∨
      (disk.createDirectories path).2.get? q = some .directory ∧ Path.check path = .ok () ∧
        ∃ names, names <+: (Path.start path).2 ∧
          (disk.createDirectories path).2.follow (Path.start path).1 names = .ok q := by
  cases hcheck : Path.check path with
  | error e =>
    left
    rw [createDirectories, hcheck]
    split <;> exact hq
  | ok u =>
    obtain ⟨blanks, -, hnames⟩ := Path.exists_backwards path
    rcases (makesWay_createDirectories disk path).made q hq with
      hnone | ⟨hdir, names, hstarts, hfollow⟩
    · exact Or.inl hnone
    · refine Or.inr ⟨hdir, rfl, names, hstarts.trans ?_, hfollow⟩
      rw [hnames]
      exact List.prefix_append _ _

theorem leadsTo_of_createDirectories {made : Disk} (hpath : path ≠ "")
    (h : disk.createDirectories path = (.ok (), made)) :
    LeadsTo made path (Path.place path) := by
  obtain ⟨hcheck, q, hfollow, hdir⟩ := leadsAlong_of_createDirectories hpath h
  obtain ⟨blanks, hblanks, hnames⟩ := Path.exists_backwards path
  have hresolve : made.resolve path = .ok q := by
    refine resolve_eq_ok.mpr ⟨hcheck, ?_⟩
    rw [hnames, follow_append]
    change (made.follow (Path.backwards path).1 _).bind _ = _
    rw [hfollow]
    exact follow_blanks hdir hblanks
  obtain rfl := eq_place_of_resolve hresolve
  exact ⟨hresolve, hdir⟩

theorem get?_remove_below {place q : Place} (h : place <+: q) (hlen : 1 < q.length) :
    (disk.remove place).get? q = none := by
  have hnone : (disk.remove place).entries.find? (·.1 == q) = none := by
    rw [List.find?_eq_none]
    intro e he heq
    have hkept := (List.mem_filter.mp he).2
    obtain rfl : e.1 = q := by simpa using heq
    rw [List.isPrefixOf_iff_prefix.mpr h] at hkept
    cases hkept
  rw [get?, if_neg (Nat.not_le.mpr hlen), hnone, Option.map_none]

theorem get?_remove_outside {place q : Place} (h : ¬place <+: q) :
    (disk.remove place).get? q = disk.get? q := by
  rw [get?, get?, remove, List.find?_filter]
  have hsame : (fun e : Place × Entry =>
      decide ((!place.isPrefixOf e.1) = true ∧ (e.1 == q) = true)) = fun e => e.1 == q := by
    funext e
    rcases eq_or_ne e.1 q with rfl | he
    · have hstarts : place.isPrefixOf e.1 = false := by
        rwa [Bool.eq_false_iff, ne_eq, List.isPrefixOf_iff_prefix]
      simp [hstarts]
    · simp [he]
  rw [hsame]

end Disk

end BlockQuery
