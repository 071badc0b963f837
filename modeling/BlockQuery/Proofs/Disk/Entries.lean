import Mathlib.Tactic
import BlockQuery.Disk

/-!
# What is found on a disk

A disk is known by what `get?` finds on it.  Putting an entry changes what is
found at its place only, and writing to an open file only what that file holds.
Following a path depends on which places are directories.
-/

namespace BlockQuery.Disk

theorem one_lt_of_get?_file {disk : Disk} {place : Place} {number : ℕ} {content : Bytes}
    (h : disk.get? place = some (.file number content)) : 1 < place.length := by
  by_contra hlen
  rw [get?, if_pos (Nat.le_of_not_lt hlen)] at h
  cases h

theorem one_lt_of_get?_ne {disk : Disk} {place : Place}
    (h : disk.get? place ≠ some .directory) : 1 < place.length := by
  by_contra hlen
  exact h (if_pos (Nat.le_of_not_lt hlen))

theorem get?_put_of_ne (disk : Disk) {place q : Place} (entry : Entry) (h : q ≠ place) :
    (disk.put place entry).get? q = disk.get? q := by
  by_cases hlen : q.length ≤ 1
  · rw [get?, if_pos hlen, get?, if_pos hlen]
  · rw [get?, if_neg hlen, get?, if_neg hlen]
    by_cases hany : disk.entries.any (·.1 == place) = true
    · have hsame : ((fun e : Place × Entry => e.1 == q) ∘
          fun e => if e.1 == place then (place, entry) else e) = fun e => e.1 == q := by
        funext e
        by_cases he : e.1 = place
        · have hp : (place == q) = false := by simpa using Ne.symm h
          simp [he, hp]
        · simp [he]
      rw [put, if_pos hany, List.find?_map, hsame, Option.map_map]
      cases hfind : disk.entries.find? (fun e => e.1 == q) with
      | none => rfl
      | some e =>
        have heq : e.1 = q := by simpa using List.find?_some hfind
        have hne : e.1 ≠ place := heq ▸ h
        simp [hne]
    · have hp : (place == q) = false := by simpa using Ne.symm h
      simp [put, hany, List.find?_append, hp]

/-- Whether two disks have the same directories. -/
def SameDirectories (disk other : Disk) : Prop :=
  ∀ q, disk.get? q = some .directory ↔ other.get? q = some .directory

namespace SameDirectories

variable {a b c : Disk}

theorem refl (a : Disk) : SameDirectories a a := fun _ => Iff.rfl

theorem symm (h : SameDirectories a b) : SameDirectories b a := fun q => (h q).symm

theorem trans (h₁ : SameDirectories a b) (h₂ : SameDirectories b c) : SameDirectories a c :=
  fun q => (h₁ q).trans (h₂ q)

end SameDirectories

/-- Directories are the same if only the entry at one place differs, and is no directory. -/
theorem sameDirectories_of_ne {disk other : Disk} {place : Place}
    (h : disk.get? place ≠ some .directory) (h' : other.get? place ≠ some .directory)
    (hothers : ∀ q, q ≠ place → other.get? q = disk.get? q) : SameDirectories disk other := by
  intro q
  rcases eq_or_ne q place with rfl | hq
  · exact ⟨fun hd => absurd hd h, fun hd => absurd hd h'⟩
  · rw [hothers q hq]

theorem sameDirectories_put_file (disk : Disk) {place : Place}
    (h : disk.get? place ≠ some .directory) (number : ℕ) (content : Bytes) :
    SameDirectories disk (disk.put place (.file number content)) := by
  apply sameDirectories_of_ne h
  · rw [get?_put_self disk _ (one_lt_of_get?_ne h)]
    exact nofun
  · exact fun q hq => get?_put_of_ne disk _ hq

/-! ## Writing to open files -/

theorem overwritten_append (content bytes : Bytes) :
    overwritten content content.length bytes = content ++ bytes := by
  unfold overwritten
  split
  next h => rw [List.isEmpty_iff.mp h, List.append_nil]
  next h => simp

theorem writeAt_eq_put {disk : Disk} {file : OpenFile} {content : Bytes}
    (h : disk.get? file.place = some (.file file.number content)) (position : ℕ) (bytes : Bytes) :
    disk.writeAt file position bytes =
      disk.put file.place (.file file.number (overwritten content position bytes)) := by
  simp only [writeAt, h, if_true]

/-! ## Following paths -/

theorem follow_append (disk : Disk) (place : Place) (names more : List String) :
    disk.follow place (names ++ more) = (disk.follow place names).bind (disk.follow · more) := by
  induction names generalizing place with
  | nil => rfl
  | cons name names ih =>
    rw [List.cons_append, follow, follow]
    split
    · rfl
    · rfl
    · split
      · exact ih place
      · split
        · exact ih place.above
        · split
          · rfl
          · exact ih (place ++ [name])

/-- What is reached stays within reach when directories are added. -/
theorem follow_of_directories {disk other : Disk}
    (h : ∀ q, disk.get? q = some .directory → other.get? q = some .directory)
    {place r : Place} {names : List String} (hr : disk.follow place names = .ok r) :
    other.follow place names = .ok r := by
  induction names generalizing place with
  | nil => exact hr
  | cons name names ih =>
    rw [follow] at hr ⊢
    split at hr
    · cases hr
    · cases hr
    next hdir =>
      rw [h place hdir]
      dsimp only
      split at hr
      next hstay => rw [if_pos hstay]; exact ih hr
      next hstay =>
        rw [if_neg hstay]
        split at hr
        next hup => rw [if_pos hup]; exact ih hr
        next hup =>
          rw [if_neg hup]
          split at hr
          · cases hr
          next hlong => rw [if_neg hlong]; exact ih hr

theorem resolve_of_directories {disk other : Disk}
    (h : ∀ q, disk.get? q = some .directory → other.get? q = some .directory)
    {path : String} {place : Place} (hr : disk.resolve path = .ok place) :
    other.resolve path = .ok place := by
  unfold resolve at hr ⊢
  cases hc : Path.check path with
  | error e => rw [hc] at hr; cases hr
  | ok u =>
    rw [hc] at hr
    exact follow_of_directories h hr

theorem resolve_congr {disk other : Disk} (h : SameDirectories disk other) {path : String}
    {place : Place} : disk.resolve path = .ok place ↔ other.resolve path = .ok place :=
  ⟨resolve_of_directories fun q => (h q).mp, resolve_of_directories fun q => (h q).mpr⟩

theorem openEntry_eq_ok {disk : Disk} {path : String} {entry : Entry} :
    disk.openEntry path = .ok entry ↔
      ∃ place, disk.resolve path = .ok place ∧ disk.get? place = some entry := by
  unfold openEntry
  cases hr : disk.resolve path with
  | error e =>
    constructor
    · intro h
      cases h
    · rintro ⟨_, h, _⟩
      cases h
  | ok place =>
    dsimp only [bind, Except.bind]
    cases hg : disk.get? place with
    | none =>
      constructor
      · intro h
        cases h
      · rintro ⟨_, h, hg'⟩
        cases h
        rw [hg] at hg'
        cases hg'
    | some e =>
      constructor
      · intro h
        cases h
        exact ⟨place, rfl, hg⟩
      · rintro ⟨_, h, hg'⟩
        cases h
        rw [hg] at hg'
        cases hg'
        rfl

/-- A path leads to the same entry where directories are the same, and the entry too. -/
theorem openEntry_congr {disk other : Disk} (hsame : SameDirectories disk other) {path : String}
    (h : ∀ place, disk.resolve path = .ok place → other.get? place = disk.get? place)
    {entry : Entry} : other.openEntry path = .ok entry ↔ disk.openEntry path = .ok entry := by
  rw [openEntry_eq_ok, openEntry_eq_ok]
  constructor
  · rintro ⟨place, hresolve, hget⟩
    have hresolve' := (resolve_congr hsame).mpr hresolve
    exact ⟨place, hresolve', (h place hresolve').symm.trans hget⟩
  · rintro ⟨place, hresolve, hget⟩
    exact ⟨place, (resolve_congr hsame).mp hresolve, (h place hresolve).trans hget⟩

/-- A file given a new content is found with it. -/
theorem openEntry_write {disk : Disk} {path : String} {number : ℕ} {content : Bytes}
    (h : disk.openEntry path = .ok (.file number content)) (bytes : Bytes) :
    (disk.write path bytes).openEntry path = .ok (.file number bytes) := by
  obtain ⟨place, hresolve, hget⟩ := openEntry_eq_ok.mp h
  have hnot : disk.get? place ≠ some .directory := by
    rw [hget]
    exact nofun
  have hwrite : disk.write path bytes = disk.put place (.file number bytes) := by
    rw [write, hresolve]
    dsimp only
    rw [hget]
  rw [hwrite]
  refine openEntry_eq_ok.mpr ⟨place, ?_, get?_put_self disk _ (one_lt_of_get?_ne hnot)⟩
  exact (resolve_congr (sameDirectories_put_file disk hnot number bytes)).mp hresolve

end BlockQuery.Disk
