import BlockQuery.Proofs.Disk.DataFiles
import BlockQuery.Proofs.Disk.Places

/-!
# Which files change

Making directories changes no file.  Storing rows and building an index change the file that
their path names and no other one, and none at all if they fail before they open it.
-/

namespace BlockQuery

namespace Disk

/-- Whether a file is at a place. -/
def IsFile (disk : Disk) (place : Place) : Prop :=
  ∃ number content, disk.get? place = some (.file number content)

instance (disk : Disk) (place : Place) : Decidable (disk.IsFile place) :=
  match h : disk.get? place with
  | some (.file number content) => .isTrue ⟨number, content, h⟩
  | some .directory => .isFalse fun ⟨_, _, hfile⟩ => nomatch h.symm.trans hfile
  | none => .isFalse fun ⟨_, _, hfile⟩ => nomatch h.symm.trans hfile

/-- Whether two disks have the same files but for those at some places, and no directory is gone. -/
structure ChangesWithin (places : Set Place) (disk other : Disk) : Prop where
  directories : ∀ q, disk.get? q = some .directory → other.get? q = some .directory
  files : ∀ q, q ∉ places → ∀ number content,
    other.get? q = some (.file number content) ↔ disk.get? q = some (.file number content)

/-- What a file that was opened for writing leaves, whatever was written to it. -/
structure Wrote (disk : Disk) (path : String) (other : Disk) : Prop where
  resolve : disk.resolve path = .ok (Path.place path)
  notDirectory : disk.get? (Path.place path) ≠ some .directory
  isFile : other.IsFile (Path.place path)
  others : ∀ q, q ≠ Path.place path → other.get? q = disk.get? q

variable {disk other last : Disk} {places : Set Place} {path : String}

namespace ChangesWithin

theorem refl (places : Set Place) (disk : Disk) : ChangesWithin places disk disk :=
  ⟨fun _ hq => hq, fun _ _ _ _ => Iff.rfl⟩

theorem trans (h₁ : ChangesWithin places disk other) (h₂ : ChangesWithin places other last) :
    ChangesWithin places disk last where
  directories q hq := h₂.directories q (h₁.directories q hq)
  files q hq number content := (h₂.files q hq number content).trans (h₁.files q hq number content)

theorem mono {more : Set Place} (h : ChangesWithin places disk other) (hsub : places ⊆ more) :
    ChangesWithin more disk other :=
  ⟨h.directories, fun q hq => h.files q fun hmem => hq (hsub hmem)⟩

theorem isFile_iff (h : ChangesWithin places disk other) {q : Place} (hq : q ∉ places) :
    other.IsFile q ↔ disk.IsFile q :=
  exists₂_congr fun number content => h.files q hq number content

/-- A file that a path names stays if it is not one of those that change. -/
theorem openEntry (h : ChangesWithin places disk other) (hpath : Path.place path ∉ places)
    {number : ℕ} {content : Bytes} (hentry : disk.openEntry path = .ok (.file number content)) :
    other.openEntry path = .ok (.file number content) := by
  obtain ⟨place, hresolve, hget⟩ := openEntry_eq_ok.mp hentry
  obtain rfl := eq_place_of_resolve hresolve
  exact openEntry_eq_ok.mpr ⟨_, resolve_of_directories h.directories hresolve,
    (h.files _ hpath number content).mpr hget⟩

end ChangesWithin

theorem get?_of_openEntry {entry : Entry} (h : disk.openEntry path = .ok entry) :
    disk.get? (Path.place path) = some entry := by
  obtain ⟨place, hresolve, hget⟩ := openEntry_eq_ok.mp h
  rwa [eq_place_of_resolve hresolve] at hget

/-! ## Making directories -/

theorem changesWithin_createDirectories (disk : Disk) (path : String) :
    ChangesWithin ∅ disk (disk.createDirectories path).2 where
  directories q hq := extends_createDirectories disk path q .directory hq
  files q _ number content := by
    constructor
    · intro hmade
      cases hold : disk.get? q with
      | some entry => rw [← hmade, extends_createDirectories disk path q entry hold]
      | none =>
        rcases @made_of_createDirectories disk path q hold with hnone | ⟨hdir, -⟩
        · cases hnone.symm.trans hmade
        · cases hdir.symm.trans hmade
    · exact extends_createDirectories disk path q (.file number content)

theorem changesWithin_prepareDirectory (disk : Disk) (path : String) :
    ChangesWithin ∅ disk (RowAppender.prepareDirectory disk path).2 := by
  rw [RowAppender.prepareDirectory]
  split
  · exact ChangesWithin.refl _ _
  · split
    · exact ChangesWithin.refl _ _
    · exact changesWithin_createDirectories disk _

/-! ## Writing files -/

namespace Wrote

theorem changesWithin (h : Wrote disk path other) :
    ChangesWithin {Path.place path} disk other where
  directories q hq := by
    have hne : q ≠ Path.place path := by
      rintro rfl
      exact h.notDirectory hq
    exact (h.others q hne).trans hq
  files q hq number content := by rw [h.others q hq]

/-- Below a directory nothing but the file of the name changes. -/
theorem differAt {dir child : String} {place : Place} (h : Wrote disk (Path.join dir child) other)
    (hdir : LeadsTo disk dir place) (hchild : Path.IsName child) :
    DifferAt (place ++ [child]) disk other := by
  obtain ⟨number, content, hget⟩ := h.isFile
  rw [← hdir.place_eq hchild h.resolve]
  exact ⟨sameDirectories_of_ne h.notDirectory (fun hd => nomatch hget.symm.trans hd) h.others,
    h.others⟩

theorem of_opened {file : OpenFile} (h : Opened disk path file other) : Wrote disk path other := by
  have hplace := eq_place_of_resolve h.resolve
  refine ⟨hplace ▸ h.resolve, hplace ▸ h.notDirectory, ?_, hplace ▸ h.get?_of_ne⟩
  rw [← hplace]
  exact ⟨file.number, [], h.get?_self⟩

/-- More that is written to the file changes nothing else. -/
theorem writeAt (h : Wrote disk path other) {file : OpenFile} (hfile : file.place = Path.place path)
    (position : ℕ) (bytes : Bytes) : Wrote disk path (other.writeAt file position bytes) := by
  have hdiffer := differAt_writeAt other file position bytes
  refine ⟨h.resolve, h.notDirectory, ?_, fun q hq => ?_⟩
  · obtain ⟨number, content, hget⟩ := h.isFile
    rw [← hfile] at hget ⊢
    have hlen : 1 < file.place.length := one_lt_of_get?_file hget
    rw [Disk.writeAt, hget]
    dsimp only
    split
    · exact ⟨number, _, get?_put_self other _ hlen⟩
    · exact ⟨number, content, hget⟩
  · exact (hdiffer.others q (hfile ▸ hq)).trans (h.others q hq)

end Wrote

/-- Rows that cannot be stored change no file. -/
theorem changesWithin_of_storeRows_error {rows : List Row} {fault : StorageError}
    (h : disk.storeRows path rows = (.error fault, other)) : ChangesWithin ∅ disk other := by
  have hprepare := changesWithin_prepareDirectory disk path
  rw [storeRows, RowAppender.create] at h
  rcases hprepared : RowAppender.prepareDirectory disk path with ⟨_ | _, prepared⟩
  · rw [hprepared] at h hprepare
    cases h
    exact hprepare
  · rw [hprepared] at h hprepare
    dsimp only at h
    cases hcreate : prepared.create path with
    | error e =>
      rw [hcreate] at h
      cases h
      exact hprepare
    | ok made =>
      rw [hcreate] at h
      cases h

/-- Storing rows changes no file but the one that the path names. -/
theorem changesWithin_storeRows (disk : Disk) (path : String) (rows : List Row) :
    ChangesWithin {Path.place path} disk (disk.storeRows path rows).2 := by
  rcases hstore : disk.storeRows path rows with ⟨fault | size, stored⟩
  · exact (changesWithin_of_storeRows_error hstore).mono (Set.empty_subset _)
  · have hprepare := changesWithin_prepareDirectory disk path
    obtain ⟨prepared, file, hprepared, hresolve, hnot, hself, hothers⟩ :=
      exists_file_of_storeRows hstore
    rw [hprepared] at hprepare
    have hplace := eq_place_of_resolve hresolve
    rw [hplace] at hnot hself hothers hresolve
    exact (hprepare.mono (Set.empty_subset _)).trans
      (Wrote.changesWithin ⟨hresolve, hnot, ⟨_, _, hself⟩, hothers⟩)

end Disk

/-! ## Building indexes -/

namespace Index

/-- Whether an index is refused when its file is open already. -/
def Error.IsLate : Error → Prop
  | .orderViolation .. | .overflow => True
  | _ => False

namespace Writer

variable {w : Writer} {disk : Disk} {path : String} {schema : Schema} {specs : List SortSpec}
  {loadFactor : ℕ} {verifyOrder : Bool} {fault : Error}

theorem not_isLate_of_create
    (h : create disk path schema specs loadFactor verifyOrder = .error fault) : ¬fault.IsLate := by
  rw [create] at h
  split at h
  · cases h
    exact id
  · split at h
    · cases h
      exact id
    · split at h
      · cases h
        exact id
      · split at h
        · cases h
          exact id
        · cases h

/-- Entries of the right width can only be out of order. -/
theorem isLate_of_writeAll {writes : List (Row × ℕ)}
    (hwidth : ∀ e ∈ writes, e.1.length = w.schema.length) (h : w.writeAll writes = .error fault) :
    fault.IsLate := by
  induction writes generalizing w with
  | nil => cases h
  | cons e writes ih =>
    obtain ⟨he, hwrites⟩ := List.forall_mem_cons.mp hwidth
    rw [writeAll] at h
    split at h
    next refused hrefused =>
      cases h
      rw [write, if_neg (not_not_intro he)] at hrefused
      split at hrefused
      · cases hrefused
        trivial
      · cases hrefused
    next next hnext => exact ih ((sameFile_of_write hnext).schema ▸ hwrites) h

/-- What was written makes a file unless a length is beyond 64 bits. -/
theorem isLate_of_close (horder : RowOrder.ofSpecs w.schema w.specs = .ok w.order)
    (h : w.close disk = .error fault) : fault.IsLate := by
  cases himage : w.image with
  | ok image =>
    rw [close, himage] at h
    cases h
  | error e =>
    rw [close, himage] at h
    cases h
    rw [image] at himage
    split at himage
    · cases himage
      trivial
    next header hheader =>
      obtain ⟨topCount, -, rfl⟩ := Option.map_eq_some_iff.mp hheader
      rw [Header.encode_eq_ok horder] at himage
      dsimp only at himage
      split at himage
      · cases himage
        trivial
      · cases himage

end Writer

variable {disk other : Disk} {path : String} {schema : Schema} {specs : List SortSpec}
  {loadFactor : ℕ} {verifyOrder : Bool} {entries : List (Row × ℕ)} {result : Except Error Summary}

/-- A build is refused before it touches the disk, or writes to its file. -/
theorem build_spec (hwidth : ∀ e ∈ entries, e.1.length = schema.length)
    (h : build disk path schema specs loadFactor verifyOrder entries = (result, other)) :
    ((∃ fault, result = .error fault ∧ ¬fault.IsLate) ∧ other = disk) ∨
      (∀ fault, result = .error fault → fault.IsLate) ∧ Disk.Wrote disk path other := by
  rw [build] at h
  split at h
  next fault hcreate =>
    cases h
    exact Or.inl ⟨⟨fault, rfl, Writer.not_isLate_of_create hcreate⟩, rfl⟩
  next w₀ made hcreate =>
    right
    obtain ⟨-, -, -, file, order, horder, hfile, rfl⟩ := Writer.eq_fresh_of_create hcreate
    have hopened := Disk.opened_of_create hfile
    have hwrote := Disk.Wrote.of_opened hopened
    have hsorted : ∀ e ∈ sortEntries order entries, e.1.length = schema.length := fun e he =>
      hwidth e ((perm_sortEntries order entries).mem_iff.mp he)
    have horderEq : (Writer.fresh path file schema specs order loadFactor verifyOrder).order = order :=
      rfl
    rw [horderEq] at h
    split at h
    next fault hrun =>
      cases h
      refine ⟨fun _ heq => ?_, hwrote⟩
      cases heq
      cases hwrite : (Writer.fresh path file schema specs order loadFactor verifyOrder).writeAll
          (sortEntries order entries) with
      | error e =>
        rw [hwrite] at hrun
        cases hrun
        exact Writer.isLate_of_writeAll hsorted hwrite
      | ok w =>
        rw [hwrite] at hrun
        have hfilled := filled_of_writeAll hcreate hwrite
        exact Writer.isLate_of_close hfilled.order hrun
    next summary sealed hrun =>
      cases h
      refine ⟨fun _ heq => (by cases heq), ?_⟩
      obtain ⟨w, hwrite, hclose⟩ := Except.bind_eq_ok.mp hrun
      obtain ⟨image, -, hsealed⟩ := Except.map_eq_ok.mp hclose
      cases hsealed
      have hsame : w.file = file := (Writer.sameFile_writeAll hwrite).file
      exact hwrote.writeAt (hsame ▸ Disk.eq_place_of_resolve hopened.resolve) 0 image.1

end Index

end BlockQuery
