import BlockQuery.Proofs.Checksum
import BlockQuery.Proofs.Disk.Entries
import BlockQuery.Proofs.Index.LongNames
import BlockQuery.Proofs.Row.Prefix

/-!
# Damaged index files

The numbers of a header lie in its first bytes, and the names of the columns
tell where it ends.  If a changed byte leaves the end where it is, one of the
three checksums is wrong; if it moves the end, the numbers are still the same,
so that the file has not the length that they describe.
-/

namespace BlockQuery

/-- The byte strings that differ from one by a changed byte, or by lost or additional bytes at
the end. -/
inductive Bytes.Damaged (bytes : Bytes) : Bytes → Prop where
  | changed {k : ℕ} {b : UInt8} (hk : k < bytes.length) (hne : bytes[k]? ≠ some b) :
    Damaged bytes (bytes.set k b)
  | truncated {n : ℕ} (hn : n < bytes.length) : Damaged bytes (bytes.take n)
  | extended {more : Bytes} (hmore : more ≠ []) : Damaged bytes (bytes ++ more)

namespace Index

open BlockQuery.ByteCursor (ahead)
open BlockQuery.Read (Takes takes_pure takes_error takes_bind bind_apply bind_of_ok bind_eq_ok)

namespace Header

/-! ## Framed reads -/

/-- What holds of each step of reading a header: what it gives depends only on the bytes that it
takes, and an error is always one of corruption. -/
structure Framed {α : Type} (x : Header.Read α) : Prop where
  takes : Takes x
  corruption : ∀ c e d, x c = (.error e, d) → ∃ offset damage, e = .corruption offset damage

section Framed

variable {α β : Type} {x : Header.Read α}

theorem framed_pure (a : α) : Framed (pure a : Header.Read α) := ⟨takes_pure a, nofun⟩

theorem framed_fail (offset : Option ℕ) (damage : Damage) :
    Framed (fail (.corruption offset damage) : Header.Read α) := by
  refine ⟨takes_error fun c => ⟨_, c, rfl⟩, ?_⟩
  intro c e d h
  cases h
  exact ⟨offset, damage, rfl⟩

theorem framed_position : Framed position := by
  refine ⟨?_, nofun⟩
  intro p bytes a d h
  cases h
  exact ⟨[], bytes, rfl, fun _ => rfl⟩

theorem framed_bind {f : α → Header.Read β} (hx : Framed x) (hf : ∀ a, Framed (f a)) :
    Framed (x >>= f) := by
  refine ⟨takes_bind hx.takes fun a => (hf a).takes, ?_⟩
  intro c e d h
  rw [bind_apply] at h
  rcases hstep : x c with ⟨e' | a, c'⟩
  · rw [hstep] at h
    cases h
    exact hx.corruption c _ _ hstep
  · rw [hstep] at h
    exact (hf a).corruption c' e d h

theorem framed_sized {read : BlockQuery.Read α} (h : Takes read) : Framed (sized read) := by
  have hok : ∀ {c a d}, sized read c = (.ok a, d) → read c = (.ok a, d) := by
    intro c a d hread
    rw [sized] at hread
    split at hread
    · cases hread
      assumption
    · cases hread
  refine ⟨?_, ?_⟩
  · intro p bytes a d hread
    obtain ⟨taken, rest, hbytes, htaken⟩ := h p bytes a d (hok hread)
    exact ⟨taken, rest, hbytes, fun more => sized_of_ok (htaken more)⟩
  · intro c e d herror
    rw [sized] at herror
    split at herror
    · cases herror
    · cases herror
      exact ⟨_, _, rfl⟩

theorem framed_bytes (n : ℕ) : Framed (sized (BlockQuery.Read.bytes n)) :=
  framed_sized (BlockQuery.Read.takes_bytes n)

theorem framed_nat (width : ℕ) : Framed (nat width) :=
  framed_sized (BlockQuery.Read.takes_nat width)

theorem framed_many (hx : Framed x) (n : ℕ) (done : List α) : Framed (many x n done) := by
  induction n generalizing done with
  | zero => exact framed_pure _
  | succ n ih => exact framed_bind hx fun a => ih (a :: done)

theorem framed_name : Framed name := by
  refine framed_bind framed_position fun start => ?_
  refine framed_bind (framed_nat 4) fun length => ?_
  split
  · exact framed_fail _ _
  · refine framed_bind (framed_bytes length) fun bytes => ?_
    split
    · exact framed_pure _
    · exact framed_fail _ _

theorem framed_column : Framed column := by
  refine framed_bind framed_name fun name => ?_
  refine framed_bind (framed_nat 1) fun tag => ?_
  split
  · exact framed_pure _
  · exact framed_bind framed_position fun after => framed_fail _ _

theorem framed_spec (schema : Schema) : Framed (spec schema) := by
  refine framed_bind (framed_nat 2) fun i => ?_
  refine framed_bind (framed_nat 1) fun ascending => ?_
  refine framed_bind (framed_nat 1) fun nullsFirst => ?_
  split
  · exact framed_pure _
  · exact framed_fail _ _

end Framed

/-! ## The two parts of a header -/

/-- The part of a fixed length, with all numbers of the header. -/
def opening : Header.Read (ℕ × ℕ × ℕ × ℕ × ℕ) := do
  let word ← sized (BlockQuery.Read.bytes 4)
  if word ≠ magic then fail (.corruption (some 0) .badMagic)
  else
    let version ← nat 2
    if version ≠ formatVersion then fail (.corruption (some 4) (.badVersion version))
    else
      let loadFactor ← nat 4
      let entryCount ← nat 8
      let topCount ← nat 8
      let topLength ← nat 8
      let bottomLength ← nat 8
      return (loadFactor, entryCount, topCount, topLength, bottomLength)

/-- The columns and the sort specs. -/
def names : Header.Read (Schema × List SortSpec) := do
  let columns ← nat 2
  let schema ← many column columns []
  let count ← nat 2
  let specs ← many (spec schema) count []
  return (schema, specs)

theorem framed_opening : Framed opening := by
  refine framed_bind (framed_bytes 4) fun word => ?_
  split
  · exact framed_fail _ _
  · refine framed_bind (framed_nat 2) fun version => ?_
    split
    · exact framed_fail _ _
    · refine framed_bind (framed_nat 4) fun loadFactor => ?_
      refine framed_bind (framed_nat 8) fun entryCount => ?_
      refine framed_bind (framed_nat 8) fun topCount => ?_
      refine framed_bind (framed_nat 8) fun topLength => ?_
      exact framed_bind (framed_nat 8) fun bottomLength => framed_pure _

theorem framed_names : Framed names := by
  refine framed_bind (framed_nat 2) fun columns => ?_
  refine framed_bind (framed_many framed_column columns []) fun schema => ?_
  refine framed_bind (framed_nat 2) fun count => ?_
  exact framed_bind (framed_many (framed_spec schema) count []) fun specs => framed_pure _

theorem fields_eq : fields = do
    let (loadFactor, entryCount, topCount, topLength, bottomLength) ← opening
    let (schema, specs) ← names
    return ⟨loadFactor, entryCount, topCount, topLength, bottomLength, schema, specs⟩ := by
  unfold fields opening names
  simp only [bind_assoc]
  congr 1
  funext word
  split
  · rfl
  · simp only [bind_assoc]
    congr 1
    funext version
    split
    · rfl
    · simp only [bind_assoc]
      rfl

theorem position_of_nat {width k : ℕ} {c d : ByteCursor} (h : nat width c = (.ok k, d)) :
    d.position = c.position + width := (nat_eq_ok h).2.1

theorem position_of_opening {c d : ByteCursor} {numbers : ℕ × ℕ × ℕ × ℕ × ℕ}
    (h : opening c = (.ok numbers, d)) : d.position = c.position + 42 := by
  obtain ⟨word, d₁, hword, h⟩ := bind_eq_ok h
  split at h
  · cases h
  · obtain ⟨version, d₂, hversion, h⟩ := bind_eq_ok h
    split at h
    · cases h
    · obtain ⟨loadFactor, d₃, hfactor, h⟩ := bind_eq_ok h
      obtain ⟨entryCount, d₄, hentries, h⟩ := bind_eq_ok h
      obtain ⟨topCount, d₅, hcount, h⟩ := bind_eq_ok h
      obtain ⟨topLength, d₆, htop, h⟩ := bind_eq_ok h
      obtain ⟨bottomLength, d₇, hbottom, h⟩ := bind_eq_ok h
      cases h
      rw [position_of_nat hbottom, position_of_nat htop, position_of_nat hcount,
        position_of_nat hentries, position_of_nat hfactor, position_of_nat hversion,
        (bytes_eq_ok hword).2.1]

/-- What reading has found at the start of a byte string, up to the checksum. -/
structure Found (data : Bytes) (h : Header) (n : ℕ) : Prop where
  fields_eq : fields (ahead 0 data) = (.ok h, ahead n (data.drop n))
  le_length : n + 4 ≤ data.length
  checksummed : Checksummed data n

def numbers (h : Header) : ℕ × ℕ × ℕ × ℕ × ℕ :=
  (h.loadFactor, h.entryCount, h.topCount, h.topLength, h.bottomLength)

theorem framed_fields : Framed fields := by
  rw [fields_eq]
  exact framed_bind framed_opening fun _ => framed_bind framed_names fun _ => framed_pure _

namespace Found

variable {data other : Bytes} {h h' : Header} {n n' : ℕ}

/-- The same is found in front of other bytes. -/
theorem append (hfound : Found data h n) (more : Bytes) :
    fields (ahead 0 (data.take n ++ more)) = (.ok h, ahead n more) := by
  have happend := (framed_fields.takes.of_position hfound.fields_eq (Nat.zero_add n).symm).2.2 more
  rwa [Nat.zero_add] at happend

/-- Nothing else is found where the header is the same. -/
theorem unique (hfound : Found data h n) (hfound' : Found other h' n')
    (hsame : other.take n = data.take n) : h' = h ∧ n' = n := by
  have hfields := hfound.append (other.drop n)
  rw [← hsame, List.take_append_drop, hfound'.fields_eq] at hfields
  obtain ⟨hheader, hend⟩ := Prod.mk.inj hfields
  exact ⟨Except.ok.inj hheader, congrArg ByteCursor.position hend⟩

/-- The numbers are found in the first bytes, and the names in the bytes behind them. -/
theorem split (hfound : Found data h n) : 42 ≤ n ∧
    (∀ more, opening (ahead 0 (data.take 42 ++ more)) = (.ok h.numbers, ahead 42 more)) ∧
      names (ahead 42 (data.drop 42)) = (.ok (h.schema, h.specs), ahead n (data.drop n)) := by
  have hfields := hfound.fields_eq
  rw [Header.fields_eq] at hfields
  obtain ⟨numbers, d, hopening, hrest⟩ := bind_eq_ok hfields
  obtain ⟨⟨schema, specs⟩, d', hnames, hheader⟩ := bind_eq_ok hrest
  cases hheader
  obtain ⟨-, rfl, happend⟩ :=
    framed_opening.takes.of_position hopening (position_of_opening hopening)
  exact ⟨framed_names.takes.le_position hnames, happend, hnames⟩

/-- A header found after a change of one byte has the same numbers: either its names end where they
ended, and the checksum has changed, or the byte lies behind the numbers. -/
theorem numbers_eq_of_byte {xs ys : Bytes} {b c : UInt8} (hfound : Found (xs ++ c :: ys) h n)
    (hfound' : Found (xs ++ b :: ys) h' n') (hne : c ≠ b) : h'.numbers = h.numbers := by
  obtain ⟨hle, hopening, hnames⟩ := hfound.split
  obtain ⟨-, hopening', hnames'⟩ := hfound'.split
  by_cases hk : xs.length < 42
  · rw [drop_byte hk] at hnames hnames'
    rw [hnames] at hnames'
    have hend : n = n' := congrArg (fun read => read.2.position) hnames'
    have hbyte := hfound.checksummed.byte_eq (hend ▸ hfound'.checksummed) (by omega)
    exact absurd hbyte hne
  · have htake : ∀ zs, (xs ++ zs).take 42 = xs.take 42 :=
      fun zs => List.take_append_of_le_length (Nat.le_of_not_lt hk)
    have hsame := hopening []
    have hsame' := hopening' []
    rw [htake] at hsame hsame'
    rw [hsame'] at hsame
    exact Except.ok.inj (Prod.mk.inj hsame).1

end Found

theorem check_eq_error {h : Header} {e : Error} (hcheck : h.check = .error e) :
    (∃ offset damage, e = .corruption offset damage) ∨
      e = .overflow ∧ h.loadFactor ≠ 0 ∧ topCountFor? h.entryCount h.loadFactor = none := by
  rw [check] at hcheck
  split at hcheck
  next =>
    cases hcheck
    exact Or.inl ⟨_, _, rfl⟩
  next hfactor =>
    split at hcheck
    next hnone =>
      cases hcheck
      exact Or.inr ⟨rfl, hfactor, hnone⟩
    next =>
      split at hcheck
      next =>
        cases hcheck
        exact Or.inl ⟨_, _, rfl⟩
      next =>
        split at hcheck
        next =>
          cases hcheck
          exact Or.inl ⟨_, _, rfl⟩
        next => cases hcheck

theorem topCountFor?_ne_none {h : Header} (hcheck : h.check = .ok ()) :
    topCountFor? h.entryCount h.loadFactor ≠ none := by
  intro hnone
  rw [check, hnone] at hcheck
  split at hcheck <;> cases hcheck

/-- What a byte string has to start with that is not refused for its header. -/
theorem decode_cases (data : Bytes) :
    (∃ offset damage, decode data = .error (.corruption offset damage)) ∨
      ∃ h n, Found data h n ∧ decode data = h.check.map fun _ => (h, n + 4) := by
  rw [decode, ByteCursor.ofBytes_eq_ahead]
  rcases hread : fields (ahead 0 data) with ⟨e | h, c⟩
  · obtain ⟨offset, damage, rfl⟩ := framed_fields.corruption _ _ _ hread
    exact Or.inl ⟨offset, damage, rfl⟩
  · obtain ⟨n, hn⟩ : ∃ n, c.position = n := ⟨_, rfl⟩
    obtain ⟨hle, hc, -⟩ := framed_fields.takes.of_position hread (hn.trans (Nat.zero_add n).symm)
    rw [Nat.zero_add] at hc
    subst hc
    dsimp only
    rcases hstored : nat 4 (ahead n (data.drop n)) with ⟨e | stored, after⟩
    · obtain ⟨offset, damage, rfl⟩ := (framed_nat 4).corruption _ _ _ hstored
      exact Or.inl ⟨offset, damage, rfl⟩
    · obtain ⟨hroom, hafter, rfl⟩ := nat_eq_ok hstored
      dsimp only
      split
      next => exact Or.inl ⟨_, _, rfl⟩
      next hsum =>
        rw [not_ne_iff] at hsum
        have hlength : n + 4 ≤ data.length := by
          rw [ByteCursor.remaining, ahead] at hroom
          dsimp only at hroom
          rw [Nat.add_sub_cancel_left, List.length_drop] at hroom
          omega
        refine Or.inr ⟨h, n, ⟨hread, hlength, hsum.symm⟩, ?_⟩
        rw [hafter]
        rfl

end Header

/-! ## Whole files -/

/-- The length and the checksums of the sections behind a header of some length. -/
structure Sealed (data : Bytes) (h : Header) (n : ℕ) : Prop where
  length_eq : data.length = n + h.topLength + 4 + h.bottomLength + 4
  top : Checksummed (data.drop n) h.topLength
  bottom : Checksummed (((data.drop n).drop h.topLength).drop 4) h.bottomLength

/-- Whether the top level of a file is read behind a header that was found. -/
structure Header.ReachesTop (data : Bytes) (h : Header) (n : ℕ) : Prop where
  check : h.check = .ok ()
  length_eq : data.length = n + 4 + h.topLength + 4 + h.bottomLength + 4
  resolved : ∃ order, RowOrder.ofSpecs h.schema h.specs = .ok order
  checksummed : Checksummed (data.drop (n + 4)) h.topLength

theorem readEntry_eq_error {level : String} {p : ℕ} {c : ByteCursor} {e : Error}
    (h : readEntry level p c = .error e) : ∃ offset damage, e = .corruption offset damage := by
  rw [readEntry] at h
  split at h
  · cases h
    exact ⟨_, _, rfl⟩
  · split at h
    · cases h
      exact ⟨_, _, rfl⟩
    · cases h

theorem decodeTop_eq_error {h : Header} {order : RowOrder} {start n : ℕ} {done : List TopEntry}
    {c : ByteCursor} {e : Error} (herror : decodeTop h order start n done c = .error e) :
    ∃ offset damage, e = .corruption offset damage := by
  induction n generalizing done c with
  | zero =>
    rw [decodeTop] at herror
    split at herror
    · cases herror
      exact ⟨_, _, rfl⟩
    · cases herror
  | succ n ih =>
    rw [decodeTop] at herror
    split at herror
    next _ hentry =>
      cases herror
      exact readEntry_eq_error hentry
    next =>
      split at herror
      next =>
        cases herror
        exact ⟨_, _, rfl⟩
      next => exact ih herror

theorem checkSection_iff (bytes : Bytes) (n : ℕ) :
    checkSection (bytes.take n) ((bytes.drop n).take 4) = true ↔ Checksummed bytes n := beq_iff_eq

namespace Reader

/-- How opening a file of some content ends. -/
inductive Outcome (data : Bytes) : Except Error Reader → Prop
  | corrupt (offset : Option ℕ) (damage : Damage) : Outcome data (.error (.corruption offset damage))
  /-- The counts of the header leave 64 bits. -/
  | uncounted {h : Header} {n : ℕ} : Header.Found data h n → h.loadFactor ≠ 0 →
      topCountFor? h.entryCount h.loadFactor = none → Outcome data (.error .overflow)
  /-- The lengths of the header leave 64 bits. -/
  | unmeasured {h : Header} {n : ℕ} : Header.Found data h n → h.check = .ok () →
      h.fileLength? (n + 4) = none → Outcome data (.error .overflow)
  /-- The header tells of more entries than there is room for. -/
  | crowded {h : Header} {n : ℕ} : Header.Found data h n → h.ReachesTop data n →
      maxTopCount < h.topCount → h.topLength < h.topCount → Outcome data (.error .capacity)
  | opened {h : Header} {n : ℕ} {r : Reader} : Header.Found data h n → h.check = .ok () →
      h.topCount ≤ h.topLength → Sealed data h (n + 4) → Outcome data (.ok r)

theorem readTop_eq_error {h : Header} {order : RowOrder} {start : ℕ} {content : Bytes} {e : Error}
    (herror : readTop h order start content = .error e) :
    (∃ offset damage, e = .corruption offset damage) ∨
      e = .capacity ∧ maxTopCount < h.topCount ∧ content.length < h.topCount := by
  rw [readTop] at herror
  split at herror
  next hroom =>
    rw [Bool.and_eq_true, decide_eq_true_eq, decide_eq_true_eq] at hroom
    cases herror
    exact Or.inr ⟨rfl, hroom⟩
  next => exact Or.inl (decodeTop_eq_error herror)

theorem outcome_ofContent (path : String) (data : Bytes) : Outcome data (ofContent path data) := by
  rcases Header.decode_cases data with ⟨offset, damage, hdecode⟩ | ⟨h, n, hfound, hdecode⟩
  · rw [ofContent, hdecode]
    exact .corrupt offset damage
  cases hcheck : h.check with
  | error e =>
    rw [hcheck] at hdecode
    rw [ofContent, hdecode]
    rcases Header.check_eq_error hcheck with ⟨offset, damage, rfl⟩ | ⟨rfl, hfactor, hnone⟩
    · exact .corrupt offset damage
    · exact .uncounted hfound hfactor hnone
  | ok u =>
    rw [hcheck] at hdecode
    rw [ofContent, hdecode]
    dsimp only [Except.map]
    split
    next hnone => exact .unmeasured hfound hcheck hnone
    next size hsize =>
      split
      next => exact .corrupt _ _
      next hlength =>
        have hwhole := (not_ne_iff.mp hlength).trans (fileLength?_eq_some hsize)
        have htopLength : ((data.drop (n + 4)).take h.topLength).length = h.topLength := by
          rw [List.length_take, List.length_drop]
          omega
        split
        next => exact .corrupt _ _
        next order horder =>
          split
          next => exact .corrupt _ _
          next htop =>
            rw [Bool.not_eq_true', Bool.not_eq_false, checkSection_iff] at htop
            split
            next e herror =>
              rcases readTop_eq_error herror with ⟨offset, damage, rfl⟩ | ⟨rfl, hmax, hroom⟩
              · exact .corrupt offset damage
              · rw [htopLength] at hroom
                exact .crowded hfound ⟨hcheck, hwhole, ⟨order, horder⟩, htop⟩ hmax hroom
            next entries hentries =>
              rw [readTop_eq_ok, ByteCursor.ofBytes_eq_ahead] at hentries
              have hcount := length_le_of_decodeTop hentries
              rw [htopLength] at hcount
              split
              next => exact .corrupt _ _
              next hbottom =>
                rw [Bool.not_eq_true', Bool.not_eq_false, checkSection_iff] at hbottom
                exact .opened hfound hcheck hcount ⟨hwhole, htop, hbottom⟩

end Reader

/-- Of two files with the same numbers that differ in one byte only one can be sealed. -/
theorem Sealed.byte_eq {xs ys : Bytes} {b c : UInt8} {h h' : Header} {n n' : ℕ}
    (hfound : Header.Found (xs ++ c :: ys) h n) (hfound' : Header.Found (xs ++ b :: ys) h' n')
    (hsealed : Sealed (xs ++ c :: ys) h (n + 4)) (hsealed' : Sealed (xs ++ b :: ys) h' (n' + 4))
    (hnumbers : h'.numbers = h.numbers) : c = b := by
  have hlength := hsealed.length_eq
  have hlength' := hsealed'.length_eq
  have htop : h'.topLength = h.topLength := congrArg (fun numbers => numbers.2.2.2.1) hnumbers
  have hbottom : h'.bottomLength = h.bottomLength :=
    congrArg (fun numbers => numbers.2.2.2.2) hnumbers
  have hdrop : ∀ {zs : Bytes} {m : ℕ} (ws : Bytes), m ≤ zs.length →
      (zs ++ ws).drop m = zs.drop m ++ ws := fun _ hm => List.drop_append_of_le_length hm
  obtain rfl : n = n' := by
    rw [List.length_append, List.length_cons] at hlength hlength'
    omega
  by_cases hheader : xs.length < n + 4
  · exact hfound.checksummed.byte_eq hfound'.checksummed hheader
  have htopSum := hsealed.top
  have htopSum' := hsealed'.top
  have hbottomSum := hsealed.bottom
  have hbottomSum' := hsealed'.bottom
  rw [hdrop _ (Nat.le_of_not_lt hheader)] at htopSum htopSum' hbottomSum hbottomSum'
  rw [htop] at htopSum' hbottomSum'
  rw [hbottom] at hbottomSum'
  by_cases hk : (xs.drop (n + 4)).length < h.topLength + 4
  · exact htopSum.byte_eq htopSum' hk
  · rw [List.drop_drop, hdrop _ (Nat.le_of_not_lt hk)] at hbottomSum hbottomSum'
    apply hbottomSum.byte_eq hbottomSum'
    rw [List.length_append, List.length_cons] at hlength
    rw [List.length_drop] at hk ⊢
    rw [List.length_drop]
    omega

namespace Reader

variable {path : String} {content damaged : Bytes} {r : Reader}

theorem exists_sealed_of_ok (hopen : ofContent path content = .ok r) :
    ∃ h n, Header.Found content h n ∧ h.check = .ok () ∧ h.topCount ≤ h.topLength ∧
      Sealed content h (n + 4) := by
  have houtcome := outcome_ofContent path content
  rw [hopen] at houtcome
  cases houtcome with
  | opened hfound hcheck hcount hsealed => exact ⟨_, _, hfound, hcheck, hcount, hsealed⟩

/-- Content that only can have numbers with which a file has opened is corrupt or sealed. -/
theorem corruption_or_sealed {h : Header} (path : String) (hcheck : h.check = .ok ())
    (hcount : h.topCount ≤ h.topLength)
    (hnumbers : ∀ h' n', Header.Found damaged h' n' → h'.numbers = h.numbers)
    (hroom : ∀ h' n', Header.Found damaged h' n' →
      n' + 4 + h.topLength + 4 + h.bottomLength + 4 < 2 ^ 64) :
    (∃ offset damage, ofContent path damaged = .error (.corruption offset damage)) ∨
      ∃ h' n', Header.Found damaged h' n' ∧ Sealed damaged h' (n' + 4) := by
  have hsame : ∀ {h' n'}, Header.Found damaged h' n' → h'.loadFactor = h.loadFactor ∧
      h'.entryCount = h.entryCount ∧ h'.topCount = h.topCount ∧ h'.topLength = h.topLength ∧
        h'.bottomLength = h.bottomLength := by
    intro h' n' hfound
    simpa only [Header.numbers, Prod.mk.injEq] using hnumbers h' n' hfound
  have houtcome := outcome_ofContent path damaged
  generalize hresult : ofContent path damaged = result at houtcome ⊢
  cases houtcome with
  | corrupt offset damage => exact Or.inl ⟨offset, damage, rfl⟩
  | uncounted hfound _ hnone =>
    obtain ⟨hfactor, hentries, -⟩ := hsame hfound
    rw [hfactor, hentries] at hnone
    exact absurd hnone (Header.topCountFor?_ne_none hcheck)
  | unmeasured hfound _ hnone =>
    obtain ⟨-, -, -, htop, hbottom⟩ := hsame hfound
    have hsize := hroom _ _ hfound
    rw [fileLength?_eq (by rwa [htop, hbottom])] at hnone
    cases hnone
  | crowded hfound _ _ hcrowded =>
    obtain ⟨-, -, hcount', htop, -⟩ := hsame hfound
    rw [hcount', htop] at hcrowded
    exact absurd hcount (Nat.not_le.mpr hcrowded)
  | opened hfound _ _ hsealed => exact Or.inr ⟨_, _, hfound, hsealed⟩

/-- Damage to the content of an index file shows. -/
theorem ofContent_of_damaged (hopen : ofContent path content = .ok r)
    (hsize : content.length < 2 ^ 63) (hdamaged : content.Damaged damaged) :
    ∃ offset damage, ofContent path damaged = .error (.corruption offset damage) := by
  obtain ⟨h, n, hfound, hcheck, hcount, hsealed⟩ := exists_sealed_of_ok hopen
  have hlength := hsealed.length_eq
  have hresized : damaged.length ≠ content.length →
      (∀ h' n', Header.Found damaged h' n' → h' = h ∧ n' = n) →
        ∃ offset damage, ofContent path damaged = .error (.corruption offset damage) := by
    intro hne hunique
    rcases corruption_or_sealed path hcheck hcount (fun h' n' hfound' => by rw [(hunique h' n' hfound').1])
        (fun h' n' hfound' => by rw [(hunique h' n' hfound').2]; omega) with
      herror | ⟨h', n', hfound', hsealed'⟩
    · exact herror
    · obtain ⟨rfl, rfl⟩ := hunique h' n' hfound'
      exact absurd (hsealed'.length_eq.trans hlength.symm) hne
  cases hdamaged with
  | @changed k b hk hne =>
    obtain ⟨xs, ys, c, rfl, hset, rfl, hbyte⟩ := Bytes.set_eq_byte hk hne
    rw [hset]
    rw [List.length_append, List.length_cons] at hlength hsize
    have hnumbers := fun h' n' (hfound' : Header.Found (xs ++ b :: ys) h' n') =>
      hfound.numbers_eq_of_byte hfound' hbyte
    rcases corruption_or_sealed path hcheck hcount hnumbers (fun h' n' hfound' => by
        have hle := hfound'.le_length
        rw [List.length_append, List.length_cons] at hle
        omega) with herror | ⟨h', n', hfound', hsealed'⟩
    · exact herror
    · have hsame := Sealed.byte_eq hfound hfound' hsealed hsealed' (hnumbers h' n' hfound')
      exact absurd hsame hbyte
  | @truncated m hm =>
    apply hresized
    · rw [List.length_take]
      omega
    · intro h' n' hfound'
      have hle := hfound'.le_length
      rw [List.length_take] at hle
      have htake : content.take n' = (content.take m).take n' := by
        rw [List.take_take, Nat.min_eq_left (by omega)]
      obtain ⟨rfl, rfl⟩ := hfound'.unique hfound htake
      exact ⟨rfl, rfl⟩
  | @extended more hmore =>
    apply hresized
    · rw [List.length_append]
      have hpositive := List.length_pos_of_ne_nil hmore
      omega
    · intro h' n' hfound'
      have hle := hfound.le_length
      exact hfound.unique hfound' (List.take_append_of_le_length (by omega))

/-- No damage to an index file that opens is read silently, also where it changes how the header is
laid out.  Positions in a file are signed words, so that no file is longer than they reach. -/
theorem corruption_of_damaged {disk : Disk} (hopen : open? disk path = .ok r)
    (hread : disk.read path = .ok content) (hsize : content.length < 2 ^ 63)
    (hdamaged : content.Damaged damaged) :
    ∃ offset damage, open? (disk.write path damaged) path = .error (.corruption offset damage) := by
  rw [open?] at hopen
  split at hopen
  next => cases hopen
  next => cases hopen
  next number found hentry =>
    rw [Disk.read, hentry] at hread
    cases hread
    rw [open?, Disk.openEntry_write hentry]
    exact ofContent_of_damaged hopen hsize hdamaged

open Sample in
/-- A name that seems to be longer is found, though it moves the end of the header. -/
theorem corruption_of_longer_name : ∃ summary sealed r content,
    writer.close made = .ok (summary, sealed) ∧ open? sealed "a.idx" = .ok r ∧
      sealed.read "a.idx" = .ok content ∧ content[44]? = some 1 ∧
        ∃ offset damage, open? (sealed.write "a.idx" (content.set 44 2)) "a.idx" =
          .error (.corruption offset damage) := by
  have horder : RowOrder.ofSpecs schema specs = .ok Sample.order := by cbv
  have hholds : writer.Holds [] := Writer.holds_fresh (by decide) true
  have hnames : ∀ c ∈ schema, (Bytes.ofText c.name).length ≤ maxNameLength := by
    decide
  have hfits : writer.Fits := ⟨⟨by decide, by decide⟩, by decide, by decide, hnames⟩
  have hbody := length_body_lt (hholds.fits_header hfits)
  have himage := hholds.image_eq_ok hfits.toSized hbody horder
  have hclose := Writer.close_eq_ok himage made
  have hentry := Writer.openEntry_close (Disk.opened_of_create create_empty) himage hclose
  obtain ⟨r, hofContent, -⟩ := hholds.ofContent_content hfits (List.cons_ne_nil _ _)
    (List.cons_ne_nil _ _) horder List.Pairwise.nil (fun e he => absurd he List.not_mem_nil) "a.idx"
  have hopen : open? (made.writeAt writer.file 0 writer.content) "a.idx" = .ok r := by
    rw [open?, hentry]
    exact hofContent
  have hread : (made.writeAt writer.file 0 writer.content).read "a.idx" = .ok writer.content := by
    rw [Disk.read, hentry]
    rfl
  have hlength : writer.content.length = 68 := by decide +kernel
  have hbyte : writer.content[44]? = some 1 := by
    have hheader : 44 < writer.header.body.length := by decide
    rw [Writer.content, Header.bytes, List.append_assoc, List.append_assoc,
      List.getElem?_append_left hheader]
    decide +kernel
  obtain ⟨offset, damage, hdamaged⟩ := corruption_of_damaged hopen hread (by omega)
    (.changed (k := 44) (b := 2) (by omega) (by rw [hbyte]; decide))
  exact ⟨_, _, r, writer.content, hclose, hopen, hread, hbyte, offset, damage, hdamaged⟩

end Reader

end Index

end BlockQuery
