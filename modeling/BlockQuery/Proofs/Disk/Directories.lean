import Mathlib.Data.List.TakeWhile
import BlockQuery.Proofs.Disk.Entries
import BlockQuery.Proofs.Except
import BlockQuery.Proofs.Path.Join
import BlockQuery.RowFile.Appender

/-!
# Files in a directory

A name joined to the path of a directory leads below it.  A file can be made
there, and opening it by the same path finds it.
-/

namespace BlockQuery.Disk

/-- Whether a path leads to a directory. -/
structure LeadsTo (disk : Disk) (dir : String) (place : Place) : Prop where
  resolve : disk.resolve dir = .ok place
  isDirectory : disk.get? place = some .directory

theorem resolve_eq_ok {disk : Disk} {path : String} {place : Place} :
    disk.resolve path = .ok place ↔
      Path.check path = .ok () ∧ disk.follow (Path.start path).1 (Path.start path).2 = .ok place := by
  unfold resolve
  cases hc : Path.check path with
  | error e =>
    constructor
    · intro h
      cases h
    · rintro ⟨h, _⟩
      cases h
  | ok u => exact ⟨fun h => ⟨rfl, h⟩, fun h => h.2⟩

theorem resolve_of_check {disk : Disk} {path : String} (h : Path.check path = .ok ()) :
    disk.resolve path = disk.follow (Path.start path).1 (Path.start path).2 := by
  rw [resolve, h]
  rfl

theorem check_eq_ok {path : String} :
    Path.check path = .ok () ↔
      '\x00' ∉ path.toList ∧ path ≠ "" ∧ path.utf8ByteSize ≤ Path.maxLength := by
  unfold Path.check
  split
  next h => simp_all
  next h =>
    split
    next h' => simp_all
    next h' =>
      split
      next hlong => simp; omega
      next hlong => simp_all

/-- A path that begins another one can be asked for as well. -/
theorem check_of_prefix {path : String} {cs : List Char} (h : Path.check path = .ok ())
    (hstart : cs <+: path.toList) (hne : cs ≠ []) :
    Path.check (String.ofList cs) = .ok () := by
  obtain ⟨hnul, _, hsize⟩ := check_eq_ok.mp h
  obtain ⟨more, hmore⟩ := hstart
  refine check_eq_ok.mpr ⟨?_, by simpa using hne, ?_⟩
  · intro hmem
    rw [String.toList_ofList] at hmem
    exact hnul (hmore ▸ List.mem_append_left _ hmem)
  · have hpath : path = String.ofList cs ++ String.ofList more := by
      rw [← String.ofList_append, hmore, String.ofList_toList]
    rw [hpath, String.utf8ByteSize_append] at hsize
    omega

theorem ne_empty_of_check {path : String} (h : Path.check path = .ok ()) : path ≠ "" := by
  rintro rfl
  cases h

/-! ## Names that lead nowhere -/

theorem follow_cons_of_directory {disk : Disk} {place : Place}
    (h : disk.get? place = some .directory) (name : String) (names : List String) :
    disk.follow place (name :: names) =
      if name.isEmpty || name == "." then disk.follow place names
      else if name == ".." then disk.follow place.above names
      else if Path.maxNameLength < name.utf8ByteSize then .error .nameTooLong
      else disk.follow (place ++ [name]) names := by
  rw [follow, h]

theorem isDirectory_of_follow_cons {disk : Disk} {place r : Place} {name : String}
    {names : List String} (h : disk.follow place (name :: names) = .ok r) :
    disk.get? place = some .directory := by
  rw [follow] at h
  split at h
  · cases h
  · cases h
  next hdir => exact hdir

theorem isStay_of_isBlank {name : String} (h : Path.IsBlank name) :
    (name.isEmpty || name == ".") = true := by
  rcases h with rfl | rfl <;> rfl

theorem follow_blanks {disk : Disk} {place : Place} (hdir : disk.get? place = some .directory)
    {blanks : List String} (h : ∀ name ∈ blanks, Path.IsBlank name) :
    disk.follow place blanks = .ok place := by
  induction blanks with
  | nil => rfl
  | cons name blanks ih =>
    have hstay := isStay_of_isBlank (h name List.mem_cons_self)
    rw [follow_cons_of_directory hdir, if_pos hstay]
    exact ih fun name hname => h name (List.mem_cons_of_mem _ hname)

/-- Blanks at the end of the way to a directory can be left out. -/
theorem follow_of_follow_blanks {disk : Disk} {start place : Place} {names blanks : List String}
    (hblanks : ∀ name ∈ blanks, Path.IsBlank name)
    (h : disk.follow start (names ++ blanks) = .ok place) :
    disk.follow start names = .ok place := by
  rw [follow_append] at h
  cases hq : disk.follow start names with
  | error e => rw [hq] at h; cases h
  | ok q =>
    rw [hq] at h
    change disk.follow q blanks = .ok place at h
    cases blanks with
    | nil => exact h
    | cons name blanks =>
      rw [follow_blanks (isDirectory_of_follow_cons h) hblanks] at h
      exact h

/-! ## A name below a directory -/

theorem follow_name {disk : Disk} {place : Place} (hdir : disk.get? place = some .directory)
    {child : String} (hchild : Path.IsName child) :
    disk.follow place [child] =
      if Path.maxNameLength < child.utf8ByteSize then .error .nameTooLong
      else .ok (place ++ [child]) := by
  have hstay : (child.isEmpty || child == ".") = false := by
    simp [hchild.ne_empty, hchild.ne_dot]
  have hup : (child == "..") = false := by simp [hchild.ne_dots]
  rw [follow_cons_of_directory hdir, hstay, hup]
  rfl

namespace LeadsTo

variable {disk : Disk} {dir child : String} {place : Place}

theorem ne_empty (h : LeadsTo disk dir place) : dir ≠ "" :=
  ne_empty_of_check (resolve_eq_ok.mp h.resolve).1

theorem congr {other : Disk} (h : LeadsTo disk dir place) (hsame : SameDirectories disk other) :
    LeadsTo other dir place :=
  ⟨(resolve_congr hsame).mp h.resolve, (hsame place).mp h.isDirectory⟩

/-- The names of the stem of a directory's path lead to the directory. -/
theorem follow_stem (h : LeadsTo disk dir place) :
    disk.follow (Path.start (String.ofList (Path.stem dir))).1
      (Path.start (String.ofList (Path.stem dir))).2 = .ok place := by
  have hfollow := (resolve_eq_ok.mp h.resolve).2
  rcases Path.split_dir dir with hs | hs
  · rw [Path.start_of_split (hs.trans (List.append_nil _).symm), List.append_nil] at hfollow
    dsimp only at hfollow
    exact hfollow
  · rw [Path.start_of_split hs] at hfollow
    dsimp only at hfollow
    have hblank : ∀ name ∈ [""], Path.IsBlank name := fun name hname =>
      Or.inl (List.mem_singleton.mp hname)
    exact follow_of_follow_blanks hblank hfollow

theorem resolve_join (h : LeadsTo disk dir place) (hchild : Path.IsName child)
    (hcheck : Path.check (Path.join dir child) = .ok ()) :
    disk.resolve (Path.join dir child) = disk.follow place [child] := by
  rw [resolve_of_check hcheck, Path.start_of_split (Path.split_join h.ne_empty hchild),
    follow_append, h.follow_stem]
  rfl

theorem backwards_join (h : LeadsTo disk dir place) (hchild : Path.IsName child) :
    Path.backwards (Path.join dir child) =
      ((Path.start (String.ofList (Path.stem dir))).1,
        child :: (Path.start (String.ofList (Path.stem dir))).2.reverse) := by
  have hsome : child.isEmpty = false := by simpa using hchild.ne_empty
  rw [Path.backwards, Path.start_of_split (Path.split_join h.ne_empty hchild)]
  simp [hsome]

theorem lastStep?_join (h : LeadsTo disk dir place) (hchild : Path.IsName child) :
    disk.lastStep? (Path.start (String.ofList (Path.stem dir))).1
      (child :: (Path.start (String.ofList (Path.stem dir))).2.reverse) =
        .ok (some (place, child)) := by
  have hdot : disk.follow place ["."] = .ok place :=
    follow_blanks h.isDirectory fun name hname => Or.inr (List.mem_singleton.mp hname)
  have hnot : (child == "." || child == "..") = false := by simp [hchild.ne_dot, hchild.ne_dots]
  rw [lastStep?, List.reverse_reverse, follow_append, h.follow_stem]
  change (disk.follow place ["."] >>= fun place =>
    pure (if (child == "." || child == "..") = true then none else some (place, child))) = _
  rw [hdot, hnot]
  rfl

end LeadsTo

/-! ## Making files -/

/-- What opening a file for writing does, whatever path leads to it. -/
structure Opened (disk : Disk) (path : String) (file : OpenFile) (after : Disk) : Prop where
  resolve : disk.resolve path = .ok file.place
  notDirectory : disk.get? file.place ≠ some .directory
  get?_self : after.get? file.place = some (.file file.number [])
  get?_of_ne : ∀ q, q ≠ file.place → after.get? q = disk.get? q

theorem Opened.sameDirectories {disk after : Disk} {path : String} {file : OpenFile}
    (h : Opened disk path file after) : SameDirectories disk after :=
  sameDirectories_of_ne h.notDirectory (h.get?_self ▸ nofun) h.get?_of_ne

theorem follow_dot {disk : Disk} {start q : Place} {names : List String} :
    disk.follow start (names ++ ["."]) = .ok q ↔
      disk.follow start names = .ok q ∧ disk.get? q = some .directory := by
  have hdot : ∀ name ∈ ["."], Path.IsBlank name := fun name hname =>
    Or.inr (List.mem_singleton.mp hname)
  constructor
  · intro h
    rw [follow_append] at h
    cases hr : disk.follow start names with
    | error e => rw [hr] at h; cases h
    | ok r =>
      rw [hr] at h
      change disk.follow r ["."] = .ok q at h
      have hdir := isDirectory_of_follow_cons h
      rw [follow_blanks hdir hdot] at h
      cases h
      exact ⟨rfl, hdir⟩
  · rintro ⟨h, hdir⟩
    rw [follow_append, h]
    exact follow_blanks hdir hdot

theorem lastStep?_eq_some {disk : Disk} {start above : Place} {backwards : List String}
    {last : String} (h : disk.lastStep? start backwards = .ok (some (above, last))) :
    ∃ rest, backwards = last :: rest ∧ disk.follow start rest.reverse = .ok above ∧
      disk.get? above = some .directory := by
  cases backwards with
  | nil => cases h
  | cons name rest =>
    rw [lastStep?] at h
    cases hf : disk.follow start (rest.reverse ++ ["."]) with
    | error e => rw [hf] at h; cases h
    | ok q =>
      rw [hf] at h
      change Except.ok (if (name == "." || name == "..") = true then none else some (q, name)) = _
        at h
      split at h
      · cases h
      · obtain ⟨rfl, rfl⟩ : q = above ∧ name = last := by simpa using h
        exact ⟨rest, rfl, follow_dot.mp hf⟩

/-- What opening the file at a place does. -/
def openAt (disk : Disk) (place : Place) : Except IoError (OpenFile × Disk) :=
  match disk.get? place with
  | some .directory => .error .isDirectory
  | some (.file number _) => .ok (⟨place, number⟩, disk.put place (.file number []))
  | none =>
    .ok (⟨place, disk.nextNumber⟩,
      { disk with nextNumber := disk.nextNumber + 1 }.put place (.file disk.nextNumber []))

theorem get?_nextNumber (disk : Disk) (n : ℕ) (q : Place) :
    ({ disk with nextNumber := n }).get? q = disk.get? q := rfl

theorem opened_of_openAt {disk after : Disk} {path : String} {place : Place} {file : OpenFile}
    (hresolve : disk.resolve path = .ok place) (h : disk.openAt place = .ok (file, after)) :
    Opened disk path file after := by
  unfold openAt at h
  split at h
  · cases h
  next number content hget =>
    cases h
    exact ⟨hresolve, by rw [hget]; simp, get?_put_self disk _ (one_lt_of_get?_file hget),
      fun q hq => get?_put_of_ne disk _ hq⟩
  next hget =>
    cases h
    have hlen : 1 < place.length := one_lt_of_get?_ne (by rw [hget]; simp)
    exact ⟨hresolve, by rw [hget]; simp, get?_put_self _ _ hlen, fun q hq => by
      rw [get?_put_of_ne _ _ hq, get?_nextNumber]⟩

/-- A file is opened for writing below the directory that all names but the last lead to. -/
theorem create_eq_of_lastStep? {disk : Disk} {path : String} {above : Place} {last : String}
    (hcheck : Path.check path = .ok ())
    (hlast : disk.lastStep? (Path.backwards path).1 (Path.backwards path).2 =
      .ok (some (above, last)))
    (hslash : path.endsWith "/" = false) :
    disk.create path = (disk.follow above [last]).bind disk.openAt := by
  rw [create, hcheck]
  change (disk.lastStep? (Path.backwards path).1 (Path.backwards path).2 >>= _) = _
  rw [hlast]
  change (if path.endsWith "/" = true then _ else _) = _
  rw [hslash]
  change (disk.follow above [last]).bind _ = _
  congr 1

theorem opened_of_create {disk after : Disk} {path : String} {file : OpenFile}
    (h : disk.create path = .ok (file, after)) : Opened disk path file after := by
  have hstep := h
  rw [create] at hstep
  cases hcheck : Path.check path with
  | error e => rw [hcheck] at hstep; cases hstep
  | ok u =>
    rw [hcheck] at hstep
    change (disk.lastStep? (Path.backwards path).1 (Path.backwards path).2 >>= _) = _ at hstep
    cases hlast : disk.lastStep? (Path.backwards path).1 (Path.backwards path).2 with
    | error e => rw [hlast] at hstep; cases hstep
    | ok found =>
      rw [hlast] at hstep
      cases found with
      | none => cases hstep
      | some found =>
        obtain ⟨above, last⟩ := found
        cases hslash : path.endsWith "/" with
        | true =>
          change (if path.endsWith "/" = true then _ else _) = _ at hstep
          rw [hslash] at hstep
          cases hstep
        | false =>
          rw [create_eq_of_lastStep? hcheck hlast hslash] at h
          obtain ⟨rest, hrest, habove, _⟩ := lastStep?_eq_some hlast
          rw [Path.backwards_eq (ne_empty_of_check hcheck) hslash] at hrest habove
          dsimp only at hrest habove
          have hnames : (Path.start path).2 = rest.reverse ++ [last] := by
            rw [← List.reverse_reverse (Path.start path).2, hrest, List.reverse_cons]
          have hresolve : disk.resolve path = disk.follow above [last] := by
            rw [resolve_of_check hcheck, hnames, follow_append, habove]
            rfl
          cases hplace : disk.follow above [last] with
          | error e => rw [hplace] at h; cases h
          | ok place =>
            rw [hplace] at h hresolve
            exact opened_of_openAt hresolve h

namespace LeadsTo

variable {disk : Disk} {dir child : String} {place : Place}

theorem create_join (h : LeadsTo disk dir place) (hchild : Path.IsName child)
    (hcheck : Path.check (Path.join dir child) = .ok ()) :
    disk.create (Path.join dir child) = (disk.follow place [child]).bind disk.openAt := by
  apply create_eq_of_lastStep? hcheck
  · rw [h.backwards_join hchild]
    dsimp only
    exact h.lastStep?_join hchild
  · exact Path.not_endsWith_slash_join h.ne_empty hchild

/-- A file can be made in a directory under a name that no directory has. -/
theorem exists_create (h : LeadsTo disk dir place) (hchild : Path.IsName child)
    (hsize : child.utf8ByteSize ≤ Path.maxNameLength)
    (hcheck : Path.check (Path.join dir child) = .ok ())
    (hfree : disk.get? (place ++ [child]) ≠ some .directory) :
    ∃ file after, disk.create (Path.join dir child) = .ok (file, after) ∧
      file.place = place ++ [child] ∧ Opened disk (Path.join dir child) file after := by
  have hname : disk.follow place [child] = .ok (place ++ [child]) := by
    rw [follow_name h.isDirectory hchild, if_neg (Nat.not_lt.mpr hsize)]
  have hcreate := h.create_join hchild hcheck
  rw [hname] at hcreate
  change disk.create (Path.join dir child) = disk.openAt (place ++ [child]) at hcreate
  have hresolve := (h.resolve_join hchild hcheck).trans hname
  obtain ⟨file, after, hopened⟩ :
      ∃ file after, disk.openAt (place ++ [child]) = .ok (file, after) := by
    unfold openAt
    split
    next hdir => exact absurd hdir hfree
    next => exact ⟨_, _, rfl⟩
    next => exact ⟨_, _, rfl⟩
  have hafter := opened_of_openAt hresolve hopened
  have hplace := hresolve.symm.trans hafter.resolve
  exact ⟨file, after, hcreate.trans hopened, (Except.ok.inj hplace).symm, hafter⟩

/-! ## Directories that are there already -/

theorem follow_backwards (h : LeadsTo disk dir place) :
    disk.follow (Path.backwards dir).1 (Path.backwards dir).2.reverse = .ok place := by
  obtain ⟨blanks, hblanks, hnames⟩ := Path.exists_backwards dir
  have hfollow := (resolve_eq_ok.mp h.resolve).2
  rw [hnames] at hfollow
  exact follow_of_follow_blanks hblanks hfollow

theorem makeDirectory_of_leadsTo (h : LeadsTo disk dir place) :
    disk.makeDirectory (Path.backwards dir).1 (Path.backwards dir).2 = .error .alreadyExists := by
  have hfollow := h.follow_backwards
  cases hnames : (Path.backwards dir).2 with
  | nil => rfl
  | cons last above =>
    rw [hnames, List.reverse_cons, follow_append] at hfollow
    cases hq : disk.follow (Path.backwards dir).1 above.reverse with
    | error e => rw [hq] at hfollow; cases hfollow
    | ok q =>
      rw [hq] at hfollow
      change disk.follow q [last] = .ok place at hfollow
      have hstep := follow_dot.mpr ⟨hq, isDirectory_of_follow_cons hfollow⟩
      rw [makeDirectory, lastStep?, hstep]
      dsimp only [bind, Except.bind, pure, Except.pure]
      split
      next => rfl
      next above' last' heq =>
        split at heq
        · cases heq
        · cases heq
          rw [hfollow]
          dsimp only
          rw [h.isDirectory]
          rfl

theorem createDirectories_of_leadsTo (h : LeadsTo disk dir place) :
    disk.createDirectories dir = (.ok (), disk) := by
  have hthere := follow_dot.mpr ⟨h.follow_backwards, h.isDirectory⟩
  have hensure : disk.ensureDirectory (Path.backwards dir).1 (Path.backwards dir).2 =
      (.ok (), disk) := by
    rw [ensureDirectory, h.makeDirectory_of_leadsTo]
    dsimp only
    rw [hthere]
    rfl
  rw [createDirectories, if_neg (by simpa using h.ne_empty), (resolve_eq_ok.mp h.resolve).1]
  dsimp only
  rw [ensureDirectories, hensure]
  intro _ _ _ hmissing
  rw [hensure] at hmissing
  cases hmissing

/-- The path above a name in a directory leads somewhere. -/
theorem exists_parent (h : LeadsTo disk dir place) (hchild : Path.IsName child)
    (hlast : child.toList.getLast? ≠ some '.') :
    ∃ parent, Path.parent? (Path.join dir child) = some parent ∧
      disk.pathExists parent = true := by
  refine ⟨_, Path.parent?_join h.ne_empty hchild hlast, ?_⟩
  split
  next =>
    rw [pathExists, openEntry_eq_ok.mpr ⟨["/"], rfl, rfl⟩]
    rfl
  next hne =>
    have htrim := Path.trimEnd_suffix (Path.stem dir).reverse
    obtain ⟨blanks, hblanks, hsplit⟩ := Path.split_trimEnd (Path.stem dir).reverse
    rw [List.reverse_reverse] at hsplit
    have hfollow := h.follow_stem
    rw [Path.start_of_split hsplit] at hfollow
    dsimp only at hfollow
    have hcheck := check_of_prefix (resolve_eq_ok.mp h.resolve).1
      (List.reverse_prefix.mpr htrim |>.trans (by simpa using Path.stem_prefix dir)) (by simpa using hne)
    have hresolve := resolve_eq_ok.mpr ⟨hcheck, follow_of_follow_blanks hblanks hfollow⟩
    rw [pathExists, openEntry_eq_ok.mpr ⟨place, hresolve, h.isDirectory⟩]
    rfl

end LeadsTo

/-! ## Directories that are made -/

/-- Whether all entries of a disk are on another one too. -/
def Extends (disk other : Disk) : Prop := ∀ q e, disk.get? q = some e → other.get? q = some e

theorem Extends.trans {a b c : Disk} (h₁ : Extends a b) (h₂ : Extends b c) : Extends a c :=
  fun q e hq => h₂ q e (h₁ q e hq)

/-- Whether a disk has got nothing but directories that are passed on the way along some names. -/
structure MakesWay (start : Place) (names : List String) (disk other : Disk) : Prop where
  kept : Extends disk other
  made : ∀ q, disk.get? q = none → other.get? q = none ∨
    other.get? q = some .directory ∧ ∃ passed, passed <+: names ∧ other.follow start passed = .ok q

section MakesWay

variable {disk other : Disk} {start : Place} {names : List String}

theorem MakesWay.refl (start : Place) (names : List String) (disk : Disk) :
    MakesWay start names disk disk := ⟨fun _ _ hq => hq, fun _ hq => Or.inl hq⟩

theorem MakesWay.trans {last : Disk} (h₁ : MakesWay start names disk other)
    (h₂ : MakesWay start names other last) : MakesWay start names disk last := by
  refine ⟨h₁.kept.trans h₂.kept, fun q hq => ?_⟩
  rcases h₁.made q hq with hnone | ⟨hdir, passed, hpassed, hfollow⟩
  · exact h₂.made q hnone
  · exact Or.inr ⟨h₂.kept q _ hdir, passed, hpassed,
      follow_of_directories (fun p => h₂.kept p .directory) hfollow⟩

theorem MakesWay.of_prefix {more : List String} (h : MakesWay start names disk other)
    (hnames : names <+: more) : MakesWay start more disk other := by
  refine ⟨h.kept, fun q hq => (h.made q hq).imp_right ?_⟩
  rintro ⟨hdir, passed, hpassed, hfollow⟩
  exact ⟨hdir, passed, hpassed.trans hnames, hfollow⟩

/-- Whether names lead to a directory. -/
def LeadsAlong (disk : Disk) (start : Place) (names : List String) : Prop :=
  ∃ q, disk.follow start names = .ok q ∧ disk.get? q = some .directory

theorem makesWay_of_makeDirectory {made : Disk} {backwards : List String}
    (h : disk.makeDirectory start backwards = .ok made) :
    MakesWay start backwards.reverse disk made ∧ LeadsAlong made start backwards.reverse := by
  rw [makeDirectory] at h
  obtain ⟨found, hlast, h⟩ := Except.bind_eq_ok.mp h
  cases found with
  | none => cases h
  | some found =>
    obtain ⟨place, hplace, h⟩ := Except.bind_eq_ok.mp h
    obtain ⟨hfree, h⟩ := Except.guard_eq_ok.mp h
    cases h
    obtain ⟨above, last⟩ := found
    obtain ⟨rest, rfl, habove, -⟩ := lastStep?_eq_some hlast
    have hnone : disk.get? place = none := by simpa using hfree
    have hself := get?_put_self disk .directory (one_lt_of_get?_ne (by rw [hnone]; exact nofun))
    have hkept : Extends disk (disk.put place .directory) := by
      intro q e hq
      have hne : q ≠ place := by
        rintro rfl
        rw [hnone] at hq
        cases hq
      rw [get?_put_of_ne disk _ hne, hq]
    have hfollow : (disk.put place .directory).follow start (last :: rest).reverse = .ok place := by
      apply follow_of_directories (fun q => hkept q .directory)
      rw [List.reverse_cons, follow_append, habove]
      exact hplace
    refine ⟨⟨hkept, fun q hq => ?_⟩, place, hfollow, hself⟩
    rcases eq_or_ne q place with rfl | hne
    · exact Or.inr ⟨hself, _, List.prefix_refl _, hfollow⟩
    · exact Or.inl ((get?_put_of_ne disk _ hne).trans hq)

theorem makesWay_ensureDirectory (disk : Disk) (start : Place) (backwards : List String) :
    MakesWay start backwards.reverse disk (disk.ensureDirectory start backwards).2 ∧
      ((disk.ensureDirectory start backwards).1 = .ok () →
        LeadsAlong (disk.ensureDirectory start backwards).2 start backwards.reverse) := by
  unfold ensureDirectory
  split
  next hmade =>
    obtain ⟨hway, hleads⟩ := makesWay_of_makeDirectory hmade
    exact ⟨hway, fun _ => hleads⟩
  next =>
    refine ⟨MakesWay.refl _ _ disk, fun hok => ?_⟩
    cases hthere : disk.follow start (backwards.reverse ++ ["."]) with
    | error e =>
      rw [hthere] at hok
      cases hok
    | ok q => exact ⟨q, follow_dot.mp hthere⟩

theorem makesWay_ensureDirectories (disk : Disk) (start : Place) (backwards : List String) :
    MakesWay start backwards.reverse disk (disk.ensureDirectories start backwards).2 ∧
      ((disk.ensureDirectories start backwards).1 = .ok () →
        LeadsAlong (disk.ensureDirectories start backwards).2 start backwards.reverse) := by
  induction hn : backwards.length using Nat.strong_induction_on generalizing disk backwards with
  | _ n ih =>
    have hone := makesWay_ensureDirectory disk start backwards
    rw [ensureDirectories.eq_def]
    split
    next made last above _ =>
      have hsuffix := List.dropWhile_suffix (l := above) fun name => name.isEmpty || name == "."
      have hprefix := List.reverse_prefix.mpr (hsuffix.trans (List.suffix_cons last above))
      have hlt : (above.dropWhile fun name => name.isEmpty || name == ".").length < n := by
        rw [← hn]
        exact Nat.lt_succ_of_le hsuffix.length_le
      obtain ⟨hway, -⟩ := ih _ hlt disk _ rfl
      split
      next other hok =>
        rw [hok] at hway
        obtain ⟨hlast, hleads⟩ := makesWay_ensureDirectory other start (last :: above)
        exact ⟨(hway.of_prefix hprefix).trans hlast, hleads⟩
      next other hfail =>
        rw [hfail] at hway
        exact ⟨hway.of_prefix hprefix, fun hok => by cases hok⟩
    next => exact hone

end MakesWay

/-- Making directories leaves all that is there, and adds what the path passes. -/
theorem makesWay_createDirectories (disk : Disk) (path : String) :
    MakesWay (Path.backwards path).1 (Path.backwards path).2.reverse disk
      (disk.createDirectories path).2 := by
  unfold createDirectories
  split
  · exact MakesWay.refl _ _ disk
  · split
    · exact MakesWay.refl _ _ disk
    · exact (makesWay_ensureDirectories disk _ _).1

theorem extends_createDirectories (disk : Disk) (path : String) :
    Extends disk (disk.createDirectories path).2 := (makesWay_createDirectories disk path).kept

/-- A directory that was made is there. -/
theorem leadsAlong_of_createDirectories {disk made : Disk} {path : String} (hpath : path ≠ "")
    (h : disk.createDirectories path = (.ok (), made)) : Path.check path = .ok () ∧
      LeadsAlong made (Path.backwards path).1 (Path.backwards path).2.reverse := by
  rw [createDirectories, if_neg (by simpa using hpath)] at h
  split at h
  · cases h
  next hcheck =>
    have hleads := (makesWay_ensureDirectories disk (Path.backwards path).1
      (Path.backwards path).2).2
    change disk.ensureDirectories (Path.backwards path).1 (Path.backwards path).2 = _ at h
    rw [h] at hleads
    exact ⟨hcheck, hleads rfl⟩

/-! ## Names in the working directory -/

section Alone

variable {disk : Disk} {name : String}

theorem check_alone (h : Path.IsAlone name) : Path.check name = .ok () :=
  check_eq_ok.mpr ⟨h.nul, h.ne_empty, h.small.trans (by decide)⟩

theorem follow_alone (h : Path.IsAlone name) : disk.follow ["."] [name] = .ok [".", name] := by
  rw [follow_name rfl h.toIsName, if_neg (Nat.not_lt.mpr h.small)]
  rfl

theorem resolve_alone (h : Path.IsAlone name) : disk.resolve name = .ok [".", name] := by
  rw [resolve_of_check (check_alone h), h.start]
  exact follow_alone h

theorem openEntry_alone (h : Path.IsAlone name) {entry : Entry}
    (hentry : disk.get? [".", name] = some entry) : disk.openEntry name = .ok entry :=
  openEntry_eq_ok.mpr ⟨_, resolve_alone h, hentry⟩

theorem lastStep?_alone (h : Path.IsAlone name) :
    disk.lastStep? ["."] [name] = .ok (some (["."], name)) := by
  have hnot : (name == "." || name == "..") = false := by simp [h.ne_dot, h.ne_dots]
  rw [lastStep?, hnot]
  rfl

theorem create_alone (h : Path.IsAlone name) : disk.create name = disk.openAt [".", name] := by
  have hlast : disk.lastStep? (Path.backwards name).1 (Path.backwards name).2 =
      .ok (some (["."], name)) := by
    rw [h.backwards]
    exact lastStep?_alone h
  rw [create_eq_of_lastStep? (check_alone h) hlast h.not_endsWith_slash, follow_alone h]
  rfl

theorem createDirectories_alone (h : Path.IsAlone name) (hfree : disk.get? [".", name] = none) :
    disk.createDirectories name = (.ok (), disk.put [".", name] .directory) := by
  have hmake : disk.makeDirectory ["."] [name] = .ok (disk.put [".", name] .directory) := by
    rw [makeDirectory, lastStep?_alone h]
    dsimp only [bind, Except.bind]
    rw [follow_alone h]
    dsimp only
    rw [hfree]
    rfl
  have hensure : disk.ensureDirectory ["."] [name] =
      (.ok (), disk.put [".", name] .directory) := by
    rw [ensureDirectory, hmake]
  have hempty : name.isEmpty = false := by simpa using h.ne_empty
  rw [createDirectories, hempty, if_neg Bool.false_ne_true, check_alone h]
  dsimp only
  rw [h.backwards]
  dsimp only
  unfold ensureDirectories
  rw [hensure]

end Alone

end BlockQuery.Disk
