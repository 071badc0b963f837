import BlockQuery.Proofs.Index.Building
import BlockQuery.Proofs.RowFile.Append

/-!
# Files that are made in a directory

Storing rows changes nothing but the file of the name that was given, whether it
ends well or not.  What is found in the directory by other names stays the same.
-/

namespace BlockQuery

namespace Disk

/-- Whether two disks differ in the file at a place at most. -/
structure DifferAt (place : Place) (disk other : Disk) : Prop where
  sameDirectories : SameDirectories disk other
  others : ∀ q, q ≠ place → other.get? q = disk.get? q

variable {disk other : Disk} {place : Place} {dir child name : String}

theorem DifferAt.refl (place : Place) (disk : Disk) : DifferAt place disk disk :=
  ⟨SameDirectories.refl disk, fun _ _ => rfl⟩

theorem differAt_writeAt (disk : Disk) (file : OpenFile) (position : ℕ) (bytes : Bytes) :
    DifferAt file.place disk (disk.writeAt file position bytes) := by
  unfold writeAt
  split
  next number content hget =>
    split
    next =>
      have hnot : disk.get? file.place ≠ some .directory := by
        rw [hget]
        exact nofun
      exact ⟨sameDirectories_put_file disk hnot _ _, fun q hq => get?_put_of_ne disk _ hq⟩
    next => exact DifferAt.refl _ _
  next => exact DifferAt.refl _ _

namespace LeadsTo

variable (h : LeadsTo disk dir place)
include h

/-- Below a directory a name leads to its own place only. -/
theorem place_eq (hchild : Path.IsName child) {q : Place}
    (hq : disk.resolve (Path.join dir child) = .ok q) : q = place ++ [child] := by
  rw [h.resolve_join hchild (resolve_eq_ok.mp hq).1, follow_name h.isDirectory hchild] at hq
  split at hq
  · cases hq
  · cases hq
    rfl

theorem openEntry_eq_ok (hchild : Path.IsName child) {entry : Entry}
    (hentry : disk.openEntry (Path.join dir child) = .ok entry) :
    disk.get? (place ++ [child]) = some entry := by
  obtain ⟨q, hq, hget⟩ := Disk.openEntry_eq_ok.mp hentry
  rwa [h.place_eq hchild hq] at hget

theorem openEntry_join_congr (hdiffer : DifferAt (place ++ [name]) disk other)
    (hchild : Path.IsName child) (hne : child ≠ name) {entry : Entry} :
    other.openEntry (Path.join dir child) = .ok entry ↔
      disk.openEntry (Path.join dir child) = .ok entry := by
  apply openEntry_congr hdiffer.sameDirectories
  intro q hq
  rw [h.place_eq hchild hq]
  apply hdiffer.others
  intro hsame
  exact hne (List.singleton_inj.mp (List.append_cancel_left hsame))

/-- Where rows cannot be stored the disk stays as it was. -/
theorem eq_of_storeRows_error (hchild : Path.IsName child)
    (hlast : child.toList.getLast? ≠ some '.') {rows : List Row} {e : StorageError}
    (hstore : disk.storeRows (Path.join dir child) rows = (.error e, other)) : other = disk := by
  rw [storeRows, RowAppender.create, RowAppender.prepareDirectory_of_leadsTo h hchild hlast]
    at hstore
  dsimp only at hstore
  cases hcreate : disk.create (Path.join dir child) with
  | error e =>
    rw [hcreate] at hstore
    cases hstore
    rfl
  | ok made =>
    rw [hcreate] at hstore
    cases hstore

/-- Rows can be stored under a name that no directory has. -/
theorem exists_storeRows (hchild : Path.IsName child) (hlast : child.toList.getLast? ≠ some '.')
    (hsize : child.utf8ByteSize ≤ Path.maxNameLength)
    (hcheck : Path.check (Path.join dir child) = .ok ())
    (hfree : disk.get? (place ++ [child]) ≠ some .directory) (rows : List Row) :
    ∃ size stored, disk.storeRows (Path.join dir child) rows = (.ok size, stored) := by
  obtain ⟨file, made, hcreate, -⟩ :=
    RowAppender.create_of_leadsTo h hchild hlast hsize hcheck hfree
  rw [storeRows, hcreate]
  exact ⟨_, _, rfl⟩

/-- Storing rows changes nothing but the file of the name. -/
theorem differAt_storeRows (hchild : Path.IsName child) (hlast : child.toList.getLast? ≠ some '.')
    (rows : List Row) :
    DifferAt (place ++ [child]) disk (disk.storeRows (Path.join dir child) rows).2 := by
  rcases hstore : disk.storeRows (Path.join dir child) rows with ⟨_ | size, stored⟩
  · rw [h.eq_of_storeRows_error hchild hlast hstore]
    exact DifferAt.refl _ _
  · obtain ⟨prepared, file, hprepared, hresolve, hnot, hself, hothers⟩ :=
      exists_file_of_storeRows hstore
    rw [RowAppender.prepareDirectory_of_leadsTo h hchild hlast] at hprepared
    cases hprepared
    rw [← h.place_eq hchild hresolve]
    exact ⟨sameDirectories_of_ne hnot (fun hd => nomatch hself.symm.trans hd) hothers, hothers⟩

end LeadsTo

end Disk

namespace Index

/-- An index is opened as before if its path leads to the same entry. -/
theorem Reader.open?_congr {disk other : Disk} {path : String}
    (h : ∀ entry, other.openEntry path = .ok entry ↔ disk.openEntry path = .ok entry)
    {r : Reader} : Reader.open? other path = .ok r ↔ Reader.open? disk path = .ok r := by
  rw [open?, open?]
  cases hdisk : disk.openEntry path with
  | error e =>
    cases hother : other.openEntry path with
    | error e' =>
      constructor
      · intro h
        cases h
      · intro h
        cases h
    | ok entry => cases hdisk.symm.trans ((h entry).mp hother)
  | ok entry => rw [(h entry).mpr hdisk]

end Index

end BlockQuery
