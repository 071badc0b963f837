import Mathlib.Data.String.Basic
import BlockQuery.Engine.Worker
import BlockQuery.Proofs.RowFile.Append
import BlockQuery.Proofs.RowSource.Files

/-!
# The files of blocks

A worker writes the output of each block to a file of its directory.  Blocks
with different numbers get different files.
-/

namespace BlockQuery

/-! ## Paths of files -/

theorem Path.check_join {dir child : String} (hdir : Path.check dir = .ok ())
    (hne : child ≠ "") (hnul : '\x00' ∉ child.toList)
    (hsize : dir.utf8ByteSize + child.utf8ByteSize + 1 ≤ Path.maxLength) :
    Path.check (Path.join dir child) = .ok () := by
  obtain ⟨hdirNul, hdirNe, _⟩ := Disk.check_eq_ok.mp hdir
  rw [Disk.check_eq_ok, Path.join]
  split
  · exact ⟨hnul, hne, by omega⟩
  · split
    · refine ⟨?_, ?_, ?_⟩
      · simp [hnul, hdirNul]
      · simp [hdirNe]
      · rw [String.utf8ByteSize_append]
        omega
    · refine ⟨?_, ?_, ?_⟩
      · simp [hnul, hdirNul]
      · simp [hdirNe]
      · have hslash : "/".utf8ByteSize = 1 := rfl
        rw [String.utf8ByteSize_append, String.utf8ByteSize_append, hslash]
        omega

/-- A path is read as before where directories are the same, and the file too. -/
theorem Disk.reader?_congr {disk other : Disk} (hsame : Disk.SameDirectories disk other)
    {path : String} (h : ∀ place, disk.resolve path = .ok place →
      other.get? place = disk.get? place) : other.reader? path = disk.reader? path := by
  apply Option.ext
  intro r
  rw [Disk.reader?, Disk.reader?, Except.toOption_eq_some, Except.toOption_eq_some]
  exact RowReader.open?_congr fun entry => Disk.openEntry_congr hsame h

/-- A path that can be read is read as before when entries were added. -/
theorem Disk.reader?_of_extends {disk other : Disk} (h : Disk.Extends disk other) {path : String}
    {r : RowReader} (hr : disk.reader? path = some r) : other.reader? path = some r := by
  cases hentry : disk.openEntry path with
  | error e =>
    rw [Disk.reader?, RowReader.open?, hentry] at hr
    cases hr
  | ok entry =>
    obtain ⟨place, hresolve, hget⟩ := Disk.openEntry_eq_ok.mp hentry
    have hother : other.openEntry path = .ok entry := Disk.openEntry_eq_ok.mpr
      ⟨place, Disk.resolve_of_directories (fun q => h q .directory) hresolve, h _ _ hget⟩
    rw [← hr, Disk.reader?, Disk.reader?, RowReader.open?, RowReader.open?, hentry, hother]

namespace Worker

/-! ## Names of files -/

/-- The name of the file that a block writes. -/
def outputName (seq : UInt32) : String := s!"block_{seq.toNat}.rows"

theorem toList_outputName (seq : UInt32) :
    (outputName seq).toList = "block_".toList ++ (Nat.toDigits 10 seq.toNat ++ ".rows".toList) := by
  simp [outputName, ToString.toString, Nat.toList_repr]

theorem outputName_injective : Function.Injective outputName := by
  intro a b h
  have hlist := congrArg String.toList h
  rw [toList_outputName, toList_outputName] at hlist
  have hdigits := List.append_cancel_right (List.append_cancel_left hlist)
  have hnumber := congrArg (fun cs => Nat.ofDigitChars 10 cs 0) hdigits
  simp only [Nat.ofDigitChars_ten_toDigits] at hnumber
  exact UInt32.toNat_inj.mp hnumber

theorem isDigit_of_mem_digits {n : ℕ} {c : Char} (h : c ∈ Nat.toDigits 10 n) : c.isDigit :=
  Nat.isDigit_of_mem_toDigits (by decide) (by decide) h

theorem notMem_outputName {c : Char} (hdigit : c.isDigit = false) (hfirst : c ∉ "block_".toList)
    (hlast : c ∉ ".rows".toList) (seq : UInt32) : c ∉ (outputName seq).toList := by
  rw [toList_outputName, List.mem_append, List.mem_append]
  rintro (h | h | h)
  · exact hfirst h
  · rw [isDigit_of_mem_digits h] at hdigit
    cases hdigit
  · exact hlast h

theorem isName_outputName (seq : UInt32) : Path.IsName (outputName seq) := by
  have hhead : (outputName seq).toList.head? = some 'b' := by
    rw [toList_outputName]
    rfl
  refine ⟨notMem_outputName (by decide) (by decide) (by decide) seq, ?_, ?_, ?_⟩ <;>
  · intro h
    rw [h] at hhead
    exact absurd hhead (by decide)

theorem getLast?_outputName (seq : UInt32) : (outputName seq).toList.getLast? = some 's' := by
  rw [toList_outputName, List.getLast?_append_of_ne_nil _ (by simp),
    List.getLast?_append_of_ne_nil _ (by simp)]
  rfl

theorem utf8ByteSize_digits {cs : List Char} (h : ∀ c ∈ cs, c.isDigit) :
    (String.ofList cs).utf8ByteSize = cs.length := by
  rw [String.utf8ByteSize_ofList]
  induction cs with
  | nil => rfl
  | cons c cs ih =>
    have hc : c.utf8Size = 1 := by
      have hdigit := h c List.mem_cons_self
      simp only [Char.isDigit, Bool.and_eq_true, decide_eq_true_eq] at hdigit
      exact Char.utf8Size_eq_one_iff.mpr (UInt32.le_trans hdigit.2 (by decide))
    rw [String.utf8Len_cons, hc, ih fun d hd => h d (List.mem_cons_of_mem _ hd)]
    rfl

theorem utf8ByteSize_outputName_le (seq : UInt32) : (outputName seq).utf8ByteSize ≤ 21 := by
  have hlength : (Nat.toDigits 10 seq.toNat).length ≤ 10 := by
    refine (Nat.length_toDigits_le_iff (by decide) (by decide)).mpr ?_
    have := seq.toNat_lt
    omega
  have hdigits : seq.toNat.repr.utf8ByteSize ≤ 10 := by
    rw [Nat.repr_eq_ofList_toDigits, utf8ByteSize_digits fun c hc => isDigit_of_mem_digits hc]
    exact hlength
  have hsize : (outputName seq).utf8ByteSize = 6 + seq.toNat.repr.utf8ByteSize + 5 := by
    simp only [outputName, ToString.toString, String.utf8ByteSize_append]
    rfl
  omega

/-! ## Places of files -/

/-- The place of the file that a block writes. -/
def outputPlace (place : Place) (seq : UInt32) : Place := place ++ [outputName seq]

theorem outputPlace_inj {place : Place} {a b : UInt32}
    (h : outputPlace place a = outputPlace place b) : a = b := by
  have hlast := List.append_cancel_left h
  exact outputName_injective (List.cons.inj hlast).1

/-- Whether a worker can write the outputs of blocks. -/
structure Room (disk : Disk) (workDir : String) (place : Place) (blocks : List Block) : Prop where
  leadsTo : disk.LeadsTo workDir place
  short : workDir.utf8ByteSize + 22 ≤ Path.maxLength
  free : ∀ b ∈ blocks, disk.get? (outputPlace place b.id.seq) ≠ some .directory

namespace Room

variable {disk : Disk} {workDir : String} {place : Place} {blocks : List Block}

theorem congr (h : Room disk workDir place blocks) {other : Disk}
    (hsame : Disk.SameDirectories disk other) : Room other workDir place blocks :=
  ⟨h.leadsTo.congr hsame, h.short, fun b hb hdir => h.free b hb ((hsame _).mpr hdir)⟩

theorem check (h : Room disk workDir place blocks) (seq : UInt32) :
    Path.check (Path.join workDir (outputName seq)) = .ok () := by
  have hsize := utf8ByteSize_outputName_le seq
  have hshort := h.short
  exact Path.check_join (Disk.resolve_eq_ok.mp h.leadsTo.resolve).1 (isName_outputName seq).ne_empty
    (notMem_outputName (by decide) (by decide) (by decide) seq) (by omega)

theorem small (seq : UInt32) : (outputName seq).utf8ByteSize ≤ Path.maxNameLength :=
  (utf8ByteSize_outputName_le seq).trans (by decide)

theorem resolve (h : Room disk workDir place blocks) (seq : UInt32) :
    disk.resolve (Path.join workDir (outputName seq)) = .ok (outputPlace place seq) := by
  rw [h.leadsTo.resolve_join (isName_outputName seq) (h.check seq),
    Disk.follow_name h.leadsTo.isDirectory (isName_outputName seq),
    if_neg (Nat.not_lt.mpr (small seq))]
  rfl

/-- The file of a block can be made. -/
theorem create (h : Room disk workDir place blocks) {b : Block} (hb : b ∈ blocks) :
    ∃ file after, RowAppender.create disk (Path.join workDir (outputName b.id.seq)) =
        (.ok ⟨Path.join workDir (outputName b.id.seq), file, [], 0, 0, 0⟩, after) ∧
      file.place = outputPlace place b.id.seq ∧
      Disk.Opened disk (Path.join workDir (outputName b.id.seq)) file after :=
  RowAppender.create_of_leadsTo h.leadsTo (isName_outputName b.id.seq)
    (by rw [getLast?_outputName]; decide) (small b.id.seq) (h.check b.id.seq) (h.free b hb)

/-- The rows of an output are read back. -/
theorem open? (h : Room disk workDir place blocks) {seq : UInt32} {number : ℕ} {content : Bytes}
    (hget : disk.get? (outputPlace place seq) = some (.file number content)) :
    RowReader.open? disk (Path.join workDir (outputName seq)) =
      .ok (.ofContent (Path.join workDir (outputName seq)) content) :=
  RowReader.open?_of_file (h.resolve seq) hget

end Room

end Worker

end BlockQuery
