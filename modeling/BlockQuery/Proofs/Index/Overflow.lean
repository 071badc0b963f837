import BlockQuery.Proofs.Index.Safety

/-!
# Headers beyond 64 bits

Opening an index sums up numbers of its header, and asks for room for its entries, before it knows
whether the numbers can be right.  Where a sum leaves 64 bits or there is no such room the program
stops.  Otherwise opening returns, and it reports counts and lengths that are not consistent.
-/

namespace BlockQuery.Index

open BlockQuery.ByteCursor (ahead)
open BlockQuery.Read (bind_of_ok bytes_ahead)

/-- Whether a result is a value or an error that is reported, so that the program goes on. -/
def Returns {α : Type} (result : Except Error α) : Prop :=
  result ≠ .error .overflow ∧ result ≠ .error .capacity

theorem returns_ok {α : Type} (a : α) : Returns (.ok a) := ⟨nofun, nofun⟩

theorem returns_corruption {α : Type} (offset : Option ℕ) (damage : Damage) :
    Returns (.error (.corruption offset damage) : Except Error α) := ⟨nofun, nofun⟩

/-! ## Sums of words -/

theorem addWords?_eq_none {a b : ℕ} : addWords? a b = none ↔ 2 ^ 64 ≤ a + b := by
  rw [addWords?]
  split
  next hroom => exact iff_of_false (Option.some_ne_none _) (Nat.not_le.mpr hroom)
  next hroom => exact iff_of_true rfl (Nat.le_of_not_lt hroom)

theorem topCountFor?_eq_none {count loadFactor : ℕ} (hfactor : loadFactor ≠ 0) :
    topCountFor? count loadFactor = none ↔ 2 ^ 64 ≤ count + loadFactor := by
  have hwidth : max loadFactor 1 = loadFactor := Nat.max_eq_left (Nat.pos_of_ne_zero hfactor)
  rw [topCountFor?, hwidth, Option.map_eq_none_iff, addWords?_eq_none]

theorem fileLength?_eq_none {h : Header} {n : ℕ} :
    h.fileLength? n = none ↔ 2 ^ 64 ≤ n + h.topLength + 4 + h.bottomLength + 4 := by
  rcases Nat.lt_or_ge (n + h.topLength + 4 + h.bottomLength + 4) (2 ^ 64) with hroom | hroom
  · rw [fileLength?_eq hroom]
    exact iff_of_false nofun (Nat.not_le.mpr hroom)
  · refine iff_of_true ?_ hroom
    cases hsize : h.fileLength? n with
    | none => rfl
    | some size =>
      have hlt := lt_of_fileLength? hsize
      rw [fileLength?_eq_some hsize] at hlt
      omega

namespace Header

variable {content : Bytes} {h : Header} {n : ℕ}

/-! ## Headers that were found -/

/-- What was found is refused for its numbers only. -/
theorem Found.decode_eq (hfound : Found content h n) :
    decode content = h.check.map fun _ => (h, n + 4) := by
  have hsum : Bytes.toNat ((content.drop n).take 4) = (checksum (content.take n)).toNat :=
    hfound.checksummed.symm
  have hlength : ((content.drop n).take 4).length = 4 := by
    have hle := hfound.le_length
    rw [List.length_take, List.length_drop]
    omega
  have hnat : nat 4 (ahead n (content.drop n)) =
      (.ok (Bytes.toNat ((content.drop n).take 4)), ahead (n + 4) ((content.drop n).drop 4)) := by
    have hbytes := bytes_ahead hlength n ((content.drop n).drop 4)
    rw [List.take_append_drop] at hbytes
    exact sized_of_ok (bind_of_ok hbytes)
  rw [decode, ByteCursor.ofBytes_eq_ahead, hfound.fields_eq]
  dsimp only
  rw [hnat]
  exact if_neg (not_not_intro hsum)

theorem found_bytes (hfits : h.Fits) {order : RowOrder}
    (horder : RowOrder.ofSpecs h.schema h.specs = .ok order) (ys : Bytes) :
    Found (h.bytes ++ ys) h.named h.body.length := by
  have hbytes : h.bytes ++ ys = h.body ++ (Bytes.ofUInt32 (checksum h.body) ++ ys) :=
    List.append_assoc _ _ _
  have hsum : (Bytes.ofUInt32 (checksum h.body)).length = 4 := Bytes.length_ofNat 4 _
  rw [hbytes]
  refine ⟨?_, ?_, ?_⟩
  · rw [fields_ahead hfits horder, List.drop_left]
  · rw [List.length_append, List.length_append, hsum]
    omega
  · rw [Checksummed, List.take_left, List.drop_left, List.take_left' hsum, toNat_ofUInt32]

/-- Whether the sums of a header that was found stay within 64 bits, and there is room for its
entries where they are read. -/
structure Moderate (content : Bytes) (h : Header) (n : ℕ) : Prop where
  counts : h.loadFactor ≠ 0 → h.entryCount + h.loadFactor < 2 ^ 64
  lengths : h.check = .ok () → n + 4 + h.topLength + 4 + h.bottomLength + 4 < 2 ^ 64
  room : ReachesTop content h n → h.topCount ≤ maxTopCount ∨ h.topCount ≤ h.topLength

/-- Whether the counts and the lengths of a header that was found belong together. -/
structure Consistent (content : Bytes) (h : Header) (n : ℕ) : Prop where
  positive : 0 < h.loadFactor
  counts : h.topCount = (h.entryCount + h.loadFactor - 1) / h.loadFactor
  lengths : content.length = n + 4 + h.topLength + 4 + h.bottomLength + 4

theorem Found.decode_eq_overflow (hfound : Found content h n) (hfactor : h.loadFactor ≠ 0)
    (hcounts : 2 ^ 64 ≤ h.entryCount + h.loadFactor) : decode content = .error .overflow := by
  rw [hfound.decode_eq, check, if_neg hfactor, (topCountFor?_eq_none hfactor).mpr hcounts]
  rfl

end Header

namespace Reader

variable {content : Bytes} {h : Header} {n : ℕ}

theorem ofContent_eq_overflow (path : String) (hfound : Header.Found content h n)
    (hcheck : h.check = .ok ()) (hlengths : 2 ^ 64 ≤ n + 4 + h.topLength + 4 + h.bottomLength + 4) :
    ofContent path content = .error .overflow := by
  rw [ofContent, hfound.decode_eq, hcheck]
  dsimp only [Except.map]
  rw [fileLength?_eq_none.mpr hlengths]

theorem ofContent_eq_capacity (path : String) (hfound : Header.Found content h n)
    (hreaches : h.ReachesTop content n) (hlengths : n + 4 + h.topLength + 4 + h.bottomLength + 4 < 2 ^ 64)
    (hmax : maxTopCount < h.topCount) (hroom : h.topLength < h.topCount) :
    ofContent path content = .error .capacity := by
  obtain ⟨hcheck, hlength, ⟨order, horder⟩, htop⟩ := hreaches
  have hcrowded : (decide (maxTopCount < h.topCount) &&
      decide (((content.drop (n + 4)).take h.topLength).length < h.topCount)) = true := by
    rw [Bool.and_eq_true, decide_eq_true_eq, decide_eq_true_eq, List.length_take]
    exact ⟨hmax, (Nat.min_le_left _ _).trans_lt hroom⟩
  rw [ofContent, hfound.decode_eq, hcheck]
  dsimp only [Except.map]
  rw [fileLength?_eq hlengths]
  dsimp only
  rw [if_neg (not_not_intro hlength), horder]
  dsimp only
  rw [(checkSection_iff _ _).mpr htop, readTop, if_pos hcrowded]
  rfl

theorem returns_decode (hmoderate : ∀ h n, Header.Found content h n → h.Moderate content n) :
    Returns (Header.decode content) := by
  rcases Header.decode_cases content with ⟨offset, damage, hdecode⟩ | ⟨h, n, hfound, hdecode⟩
  · rw [hdecode]
    exact returns_corruption offset damage
  · rw [hdecode]
    cases hcheck : h.check with
    | error e =>
      rcases Header.check_eq_error hcheck with ⟨offset, damage, rfl⟩ | ⟨-, hfactor, hnone⟩
      · exact returns_corruption offset damage
      · exact absurd ((hmoderate h n hfound).counts hfactor)
          (Nat.not_lt.mpr ((topCountFor?_eq_none hfactor).mp hnone))
    | ok u => exact returns_ok _

/-- With moderate numbers a file is refused for damage, or its numbers are consistent. -/
theorem ofContent_of_moderate (path : String)
    (hmoderate : ∀ h n, Header.Found content h n → h.Moderate content n) :
    (∃ offset damage, ofContent path content = .error (.corruption offset damage)) ∨
      ∃ h n r, Header.Found content h n ∧ h.Consistent content n ∧
        ofContent path content = .ok r := by
  -- Each outcome that stops the program goes against one of the bounds.
  have houtcome := outcome_ofContent path content
  generalize ofContent path content = result at houtcome ⊢
  cases houtcome with
  | corrupt offset damage => exact Or.inl ⟨offset, damage, rfl⟩
  | uncounted hfound hfactor hnone =>
    exact absurd ((hmoderate _ _ hfound).counts hfactor)
      (Nat.not_lt.mpr ((topCountFor?_eq_none hfactor).mp hnone))
  | unmeasured hfound hcheck hnone =>
    exact absurd ((hmoderate _ _ hfound).lengths hcheck)
      (Nat.not_lt.mpr (fileLength?_eq_none.mp hnone))
  | crowded hfound hreaches hmax hroom =>
    rcases (hmoderate _ _ hfound).room hreaches with hle | hle
    · exact absurd hle (Nat.not_le.mpr hmax)
    · exact absurd hle (Nat.not_le.mpr hroom)
  | opened hfound hcheck _ hsealed =>
    obtain ⟨hpositive, -, hcounts⟩ := Header.loadFactor_and_topCount hcheck
    exact Or.inr ⟨_, _, _, hfound, ⟨hpositive, hcounts, hsealed.length_eq⟩, rfl⟩

theorem moderate_of_returns {path : String} (hdecode : Returns (Header.decode content))
    (hopen : Returns (ofContent path content)) (hfound : Header.Found content h n) :
    h.Moderate content n := by
  refine ⟨fun hfactor => ?_, fun hcheck => ?_, fun hreaches => ?_⟩
  · by_contra hcounts
    exact hdecode.1 (hfound.decode_eq_overflow hfactor (Nat.le_of_not_lt hcounts))
  · by_contra hlengths
    exact hopen.1 (ofContent_eq_overflow path hfound hcheck (Nat.le_of_not_lt hlengths))
  · by_contra hroom
    rw [not_or, Nat.not_le, Nat.not_le] at hroom
    rcases Nat.lt_or_ge (n + 4 + h.topLength + 4 + h.bottomLength + 4) (2 ^ 64) with hlt | hge
    · exact hopen.2 (ofContent_eq_capacity path hfound hreaches hlt hroom.1 hroom.2)
    · exact hopen.1 (ofContent_eq_overflow path hfound hreaches.check hge)

/-- Reading the header of a file and opening the file return exactly if the numbers of the header
that it starts with are moderate.  Then numbers that are not consistent are reported as damage, and
no place in the bottom level leaves 64 bits. -/
theorem returns_iff_moderate {disk : Disk} {path : String} {number : ℕ} {content : Bytes}
    (hentry : disk.openEntry path = .ok (.file number content)) :
    (Returns (Header.decode content) ∧ Returns (open? disk path) ↔
      ∀ h n, Header.Found content h n → h.Moderate content n) ∧
    (∀ h n, Header.Found content h n → h.Moderate content n → h.Consistent content n ∨
      ∃ offset damage, open? disk path = .error (.corruption offset damage)) ∧
    ∀ r, open? disk path = .ok r → r.bottomStart + r.header.bottomLength + 4 < 2 ^ 64 := by
  have hopen : open? disk path = ofContent path content := by rw [open?, hentry]
  rw [hopen]
  refine ⟨⟨?_, ?_⟩, ?_, ?_⟩
  · rintro ⟨hdecode, hopened⟩ h n hfound
    exact moderate_of_returns hdecode hopened hfound
  · intro hmoderate
    refine ⟨returns_decode hmoderate, ?_⟩
    rcases ofContent_of_moderate path hmoderate with ⟨offset, damage, heq⟩ | ⟨_, _, r, -, -, heq⟩
    · rw [heq]
      exact returns_corruption offset damage
    · rw [heq]
      exact returns_ok r
  · intro h n hfound hmoderate
    -- A file starts with one header at most, so no other one is left to be moderate.
    have hall : ∀ h' n', Header.Found content h' n' → h'.Moderate content n' := by
      intro h' n' hfound'
      obtain ⟨rfl, rfl⟩ := hfound.unique hfound' rfl
      exact hmoderate
    rcases ofContent_of_moderate path hall with hcorrupt | ⟨h', n', -, hfound', hconsistent, -⟩
    · exact Or.inr hcorrupt
    · obtain ⟨rfl, rfl⟩ := hfound.unique hfound' rfl
      exact Or.inl hconsistent
  · intro r hr
    have hframed := framed_of_ofContent hr
    rw [hframed.room]
    exact hframed.words.2

end Reader

namespace Sample

/-- A header whose counts leave 64 bits. -/
def uncounted : Bytes := Header.bytes ⟨1, 18446744073709551615, 0, 0, 0, schema, specs⟩

/-- A header whose lengths leave 64 bits. -/
def unmeasured : Bytes := Header.bytes ⟨1, 0, 0, 18446744073709551615, 0, schema, specs⟩

/-- A file without sections whose header tells of too many entries. -/
def crowded : Bytes :=
  Header.bytes ⟨1, 288230376151711744, 288230376151711744, 0, 0, schema, specs⟩ ++
    encodeSection [] ++ encodeSection []

/-- A file of one block of a single byte, which should hold more entries than that. -/
def sparse : Bytes :=
  Header.bytes ⟨4294967295, 4294967295, 1, 15, 1, schema, specs⟩ ++
    encodeSection (encodeEntry ([.int4 1], 0)) ++ encodeSection [0]

/-- A header of sections that do not follow. -/
def bare : Header := ⟨1, 3, 3, 100, 1000, schema, specs⟩

/-- A disk with one file. -/
def diskOf (content : Bytes) : Disk := ⟨[([".", "a.idx"], .file 0 content)], 1⟩

theorem openEntry_diskOf (content : Bytes) :
    (diskOf content).openEntry "a.idx" = .ok (.file 0 content) :=
  Disk.openEntry_alone isAlone_index rfl

end Sample

open Sample in
/-- Numbers of which the sums leave 64 bits stop the program, as do too many entries to make room
for.  More entries than the bottom level has bytes are not reported at all. -/
theorem Reader.absurd_numbers : Header.decode uncounted = .error .overflow ∧
    (open? (diskOf uncounted) "a.idx").map entryCount = .error .overflow ∧
    (open? (diskOf unmeasured) "a.idx").map entryCount = .error .overflow ∧
    (open? (diskOf crowded) "a.idx").map entryCount = .error .capacity ∧
    (open? (diskOf sparse) "a.idx").map entryCount = .ok 4294967295 := by
  refine ⟨by decide +kernel, by decide +kernel, by decide +kernel, by decide +kernel, ?_⟩
  decide +kernel

open Sample in
/-- Lengths beyond the end of a file are reported. -/
theorem Reader.corruption_of_bare : ∃ offset damage,
    open? (diskOf bare.bytes) "a.idx" = .error (.corruption offset damage) := by
  have horder : RowOrder.ofSpecs schema specs = .ok Sample.order := by cbv
  have hfits : bare.Fits :=
    ⟨⟨by decide, by decide, by decide, by decide, by decide⟩, by decide, by decide, by decide⟩
  have hnamed : bare.named = bare := by decide +kernel
  have hfound := Header.found_bytes hfits horder []
  rw [hnamed, List.append_nil] at hfound
  have hbody : bare.body.length = 56 := by decide +kernel
  have hmoderate : bare.Moderate bare.bytes bare.body.length := by
    refine ⟨fun _ => by decide, fun _ => ?_, fun _ => Or.inl (by decide)⟩
    rw [hbody]
    decide
  obtain ⟨-, hreport, -⟩ := returns_iff_moderate (openEntry_diskOf bare.bytes)
  rcases hreport bare _ hfound hmoderate with hconsistent | hcorrupt
  · have hlengths := hconsistent.lengths
    rw [Header.length_bytes, hbody] at hlengths
    exact absurd hlengths (by decide)
  · exact hcorrupt

end BlockQuery.Index
