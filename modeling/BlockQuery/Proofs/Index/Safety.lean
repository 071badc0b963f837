import BlockQuery.Proofs.Index.Damage

/-!
# Indexes with any bytes

Opening an index checks its header, its lengths and its directory, but no entry of the
bottom level.  What it has checked is enough for all lookups and scans to stay inside the
bottom level and inside the blocks that they read, also where the keys are out of order:
the only faults left are those of entries that cannot be decoded.
-/

namespace BlockQuery.Index

/-! ## Searching by halving without an order -/

section Halving

variable {α : Type} (before : α → Bool) (xs : List α)

theorem narrow_lt {base size : ℕ} (hsize : 0 < size) : narrow before xs base size < base + size := by
  induction size using Nat.strong_induction_on generalizing base with
  | _ size ih =>
    rw [narrow]
    split
    next => omega
    next hlarge =>
      have hhalf : 0 < size - size / 2 := by omega
      dsimp only
      split
      · have hrest := @ih (size - size / 2) (by omega) (base + size / 2) hhalf
        omega
      · have hrest := @ih (size - size / 2) (by omega) base hhalf
        omega

theorem partitionPoint_le : partitionPoint before xs ≤ xs.length := by
  rw [partitionPoint]
  split
  next => exact Nat.zero_le _
  next hsome =>
    have hpositive : 0 < xs.length := by
      rw [List.isEmpty_iff] at hsome
      exact List.length_pos_of_ne_nil hsome
    have hnarrow := @narrow_lt _ before xs 0 _ hpositive
    dsimp only
    split <;> omega

end Halving

/-- Whether a result is right, or the fault of entries in a block that cannot be decoded. -/
def Decoded {α : Type} (P : α → Prop) : Except Error α → Prop
  | .ok a => P a
  | .error e => ∃ offset damage, e = .corruption (some offset) damage ∧
      (damage = .bottomKeyWidth ∨ (∃ block bytes, damage = .blockTrailing block bytes) ∨
        ∃ fault, damage = .entry "bottom" fault)

/-! ## What opening has checked -/

/-- The lengths and the directory of an index that was opened from some content. -/
structure Reader.Framed (r : Reader) (content : Bytes) : Prop where
  positive : 0 < r.header.loadFactor
  count : r.top.length = (r.entryCount + r.header.loadFactor - 1) / r.header.loadFactor
  words : r.entryCount + r.header.loadFactor < 2 ^ 64 ∧ content.length < 2 ^ 64
  room : r.bottomStart + r.header.bottomLength + 4 = content.length
  bottom : r.bottom = (content.drop r.bottomStart).take r.header.bottomLength
  inside : ∀ e ∈ r.top, e.offset < r.header.bottomLength
  increasing : r.top.Pairwise fun a b => a.offset < b.offset

theorem checkTop_inside {h : Header} {order : RowOrder} {i : ℕ} {last? : Option TopEntry}
    {e : TopEntry} (hcheck : checkTop h order i last? e = none) : e.offset < h.bottomLength ∧
      ∀ last, last? = some last → last.offset < e.offset := by
  unfold checkTop at hcheck
  split at hcheck
  next => cases hcheck
  next =>
    split at hcheck
    next => cases hcheck
    next hinside =>
      refine ⟨Nat.lt_of_not_le hinside, ?_⟩
      rintro last rfl
      dsimp only at hcheck
      split at hcheck
      next => cases hcheck
      next hle => exact Nat.lt_of_not_le hle

theorem decodeTop_spec {h : Header} {order : RowOrder} {start n : ℕ} {done entries : List TopEntry}
    {c : ByteCursor} (hdecode : decodeTop h order start n done c = .ok entries)
    (hinside : ∀ e ∈ done, e.offset < h.bottomLength)
    (hincreasing : done.Pairwise fun a b => b.offset < a.offset) :
    entries.length = done.length + n ∧ (∀ e ∈ entries, e.offset < h.bottomLength) ∧
      entries.Pairwise fun a b => a.offset < b.offset := by
  induction n generalizing done c with
  | zero =>
    rw [decodeTop] at hdecode
    split at hdecode
    next => cases hdecode
    next =>
      cases hdecode
      refine ⟨List.length_reverse, ?_, List.pairwise_reverse.mpr hincreasing⟩
      exact fun e he => hinside e (List.mem_reverse.mp he)
  | succ n ih =>
    rw [decodeTop] at hdecode
    split at hdecode
    next => cases hdecode
    next key offset after hentry =>
      split at hdecode
      next => cases hdecode
      next hcheck =>
        obtain ⟨hin, hlast⟩ := checkTop_inside hcheck
        have hall : ∀ e ∈ done, e.offset < offset := by
          cases done with
          | nil => exact fun e he => absurd he List.not_mem_nil
          | cons last done =>
            have hnext := hlast last rfl
            intro e he
            rcases List.mem_cons.mp he with rfl | he
            · exact hnext
            · exact (List.rel_of_pairwise_cons hincreasing he).trans hnext
        obtain ⟨hlength, hspec⟩ := ih hdecode (List.forall_mem_cons.mpr ⟨hin, hinside⟩)
          (List.pairwise_cons.mpr ⟨hall, hincreasing⟩)
        refine ⟨?_, hspec⟩
        rw [hlength, List.length_cons]
        omega

theorem Header.loadFactor_and_topCount {h : Header} (hcheck : h.check = .ok ()) :
    0 < h.loadFactor ∧ h.entryCount + h.loadFactor < 2 ^ 64 ∧
      h.topCount = (h.entryCount + h.loadFactor - 1) / h.loadFactor := by
  rw [check] at hcheck
  split at hcheck
  next => cases hcheck
  next hfactor =>
    have hpositive : 0 < h.loadFactor := Nat.pos_of_ne_zero hfactor
    split at hcheck
    next => cases hcheck
    next expected hexpected =>
      split at hcheck
      next => cases hcheck
      next hcount =>
        have hwidth : max h.loadFactor 1 = h.loadFactor := Nat.max_eq_left hpositive
        rw [topCountFor?, hwidth] at hexpected
        obtain ⟨sum, hsum, rfl⟩ := Option.map_eq_some_iff.mp hexpected
        rw [addWords?] at hsum
        split at hsum
        next hroom =>
          cases hsum
          exact ⟨hpositive, hroom, not_ne_iff.mp hcount⟩
        next => cases hsum

namespace Reader

variable {disk : Disk} {path : String} {content : Bytes} {r : Reader}

/-- An opened reader consists of the decoded parts of its file. -/
theorem parts_of_ofContent (hopen : ofContent path content = .ok r) : ∃ headerLength,
    Header.decode content = .ok (r.header, headerLength) ∧
      r.header.fileLength? headerLength = some content.length ∧
      decodeTop r.header r.order headerLength r.header.topCount []
        (.ofBytes ((content.drop headerLength).take r.header.topLength)) = .ok r.top ∧
      r.bottomStart = headerLength + r.header.topLength + 4 ∧
      r.bottom = (content.drop r.bottomStart).take r.header.bottomLength := by
  rw [ofContent] at hopen
  split at hopen
  next => cases hopen
  next h headerLength hdecode =>
    split at hopen
    next => cases hopen
    next expected hexpected =>
      dsimp only at hopen
      split at hopen
      next => cases hopen
      next hsize =>
        split at hopen
        next => cases hopen
        next order horder =>
          split at hopen
          next => cases hopen
          next =>
            split at hopen
            next => cases hopen
            next entries hentries =>
              split at hopen
              next => cases hopen
              next =>
                cases hopen
                refine ⟨headerLength, hdecode, ?_, readTop_eq_ok.mp hentries, rfl, ?_⟩
                · rw [hexpected, not_ne_iff.mp hsize]
                · rw [List.drop_drop, List.drop_drop, Nat.add_assoc]

theorem check_of_decode {h : Header} {n : ℕ} (hdecode : Header.decode content = .ok (h, n)) :
    h.check = .ok () := by
  rcases Header.decode_cases content with ⟨_, _, herror⟩ | ⟨h', n', -, hchecked⟩
  · rw [hdecode] at herror
    cases herror
  · rw [hdecode] at hchecked
    cases hcheck : h'.check with
    | error e =>
      rw [hcheck] at hchecked
      cases hchecked
    | ok u =>
      rw [hcheck] at hchecked
      cases hchecked
      exact hcheck

theorem framed_of_ofContent (hopen : ofContent path content = .ok r) : r.Framed content := by
  obtain ⟨n, hdecode, hsize, htop, hstart, hbottom⟩ := parts_of_ofContent hopen
  obtain ⟨hpositive, hword, hcount⟩ := Header.loadFactor_and_topCount (check_of_decode hdecode)
  obtain ⟨hlength, hinside, hincreasing⟩ :=
    decodeTop_spec htop (fun e he => absurd he List.not_mem_nil) List.Pairwise.nil
  have hroom := fileLength?_eq_some hsize
  have hlimit := lt_of_fileLength? hsize
  refine ⟨hpositive, ?_, ⟨hword, hlimit⟩, by omega, hbottom, hinside, hincreasing⟩
  rw [hlength, hcount, List.length_nil, Nat.zero_add]
  rfl

theorem exists_content_of_open? (hopen : open? disk path = .ok r) : ∃ number content,
    disk.openEntry path = .ok (.file number content) ∧ ofContent path content = .ok r := by
  rw [open?] at hopen
  split at hopen
  next => cases hopen
  next => cases hopen
  next number content hentry => exact ⟨number, content, hentry, hopen⟩

/-! ## Blocks -/

theorem decoded_decodeBlock {block at_ n : ℕ} {done : List BottomEntry} {c : ByteCursor} :
    Decoded (fun es => es.length = done.length + n) (r.decodeBlock block at_ n done c) := by
  induction n generalizing done c with
  | zero =>
    rw [decodeBlock]
    split
    next => exact ⟨_, _, rfl, Or.inr (Or.inl ⟨_, _, rfl⟩)⟩
    next => exact List.length_reverse
  | succ n ih =>
    rw [decodeBlock]
    split
    next e hentry =>
      rw [readEntry] at hentry
      split at hentry
      next =>
        cases hentry
        exact ⟨_, _, rfl, Or.inr (Or.inr ⟨_, rfl⟩)⟩
      next =>
        split at hentry
        next =>
          cases hentry
          exact ⟨_, _, rfl, Or.inr (Or.inr ⟨_, rfl⟩)⟩
        next => cases hentry
    next key offset after _ =>
      split
      next => exact ⟨_, _, rfl, Or.inl rfl⟩
      next =>
        have hrest := @ih (⟨key, offset⟩ :: done) after
        rw [List.length_cons, Nat.add_assoc, Nat.add_comm 1] at hrest
        exact hrest

/-- Each block of the directory holds its share of the entries, or cannot be decoded. -/
theorem decoded_readBlock {block : ℕ} (hblock : block < r.top.length) :
    Decoded (fun es => es.length =
        min r.header.loadFactor (r.entryCount - block * r.header.loadFactor))
      (r.readBlock block) := by
  rw [readBlock, blockSpan?, List.getElem?_eq_getElem hblock]
  dsimp only [Option.map_some]
  have hdecoded := fun at_ n c => @decoded_decodeBlock r block at_ n [] c
  simp only [List.length_nil, Nat.zero_add] at hdecoded
  exact hdecoded _ _ _

section Framed

variable (h : r.Framed content)
include h

theorem mul_lt_of_lt_length {block : ℕ} (hblock : block < r.top.length) :
    block * r.header.loadFactor < r.entryCount := by
  have hpositive := h.positive
  rw [h.count, Nat.lt_div_iff_mul_lt h.positive] at hblock
  omega

/-- A block starts before it ends, inside the bottom level. -/
theorem span_inside {block start stop : ℕ} (hspan : r.blockSpan? block = some (start, stop)) :
    block < r.top.length ∧ start < stop ∧ stop ≤ r.header.bottomLength := by
  obtain ⟨e, he, heq⟩ := Option.map_eq_some_iff.mp hspan
  cases heq
  obtain ⟨hblock, rfl⟩ := List.getElem?_eq_some_iff.mp he
  refine ⟨hblock, ?_⟩
  cases hnext : r.top[block + 1]? with
  | none => exact ⟨h.inside _ (List.getElem_mem hblock), le_rfl⟩
  | some next =>
    obtain ⟨hlt, rfl⟩ := List.getElem?_eq_some_iff.mp hnext
    exact ⟨List.pairwise_iff_getElem.mp h.increasing block (block + 1) hblock hlt (Nat.lt_succ_self _),
      (h.inside _ (List.getElem_mem hlt)).le⟩

theorem div_lt_length {ordinal : ℕ} (hordinal : ordinal < r.entryCount) :
    ordinal / r.header.loadFactor < r.top.length := by
  have hpositive := h.positive
  have hdiv := Nat.div_add_mod' ordinal r.header.loadFactor
  rw [h.count, Nat.lt_div_iff_mul_lt h.positive]
  omega

/-- The block of an entry has a slot for it. -/
theorem slot_lt_length {ordinal : ℕ} (hordinal : ordinal < r.entryCount) {es : List BottomEntry}
    (hread : r.readBlock (ordinal / r.header.loadFactor) = .ok es) :
    ordinal % r.header.loadFactor < es.length := by
  have hlength := decoded_readBlock (div_lt_length h hordinal)
  rw [hread] at hlength
  change es.length = _ at hlength
  have hmod := Nat.mod_lt ordinal h.positive
  have hdiv := Nat.div_add_mod' ordinal r.header.loadFactor
  omega

/-- A search ends at an entry of the index, or behind the last one. -/
theorem decoded_seek (key : Row) (strict : Bool) :
    Decoded (fun found => ∀ ordinal ∈ found, ordinal < r.entryCount) (r.seek key strict) := by
  have hle := partitionPoint_le (fun e : TopEntry => r.isBefore key strict e.key) r.top
  rw [seek]
  generalize partitionPoint (fun e : TopEntry => r.isBefore key strict e.key) r.top = n at hle ⊢
  dsimp only
  split
  next =>
    intro ordinal hordinal
    split at hordinal
    next => cases hordinal
    next hsome =>
      cases hordinal
      rw [List.isEmpty_iff] at hsome
      have hfirst := mul_lt_of_lt_length h (List.length_pos_of_ne_nil hsome)
      rwa [Nat.zero_mul] at hfirst
  next hn =>
    have hread := decoded_readBlock (show n - 1 < r.top.length by omega)
    cases hblock : r.readBlock (n - 1) with
    | error e =>
      rw [hblock] at hread
      exact hread
    | ok es =>
      rw [hblock] at hread
      change es.length = _ at hread
      dsimp only
      split
      next hslot =>
        intro ordinal hordinal
        cases hordinal
        omega
      next =>
        split
        next hmore =>
          intro ordinal hordinal
          cases hordinal
          exact mul_lt_of_lt_length h hmore
        next => exact fun _ hnone => absurd hnone (Option.not_mem_none _)

theorem decoded_entryAt {ordinal : ℕ} (hordinal : ordinal < r.entryCount) :
    Decoded (fun _ => True) (r.entryAt ordinal) := by
  have hread := decoded_readBlock (div_lt_length h hordinal)
  rw [entryAt]
  cases hblock : r.readBlock (ordinal / r.header.loadFactor) with
  | error e =>
    rw [hblock] at hread
    exact hread
  | ok es =>
    dsimp only
    rw [List.getElem?_eq_getElem (slot_lt_length h hordinal hblock)]
    trivial

theorem decoded_findFrom {key : Row} (hwidth : key.length = r.header.schema.length) (start : ℕ) :
    Decoded (fun found => ∀ hit ∈ found, start ≤ hit.position ∧ hit.position < r.entryCount)
      (r.findFrom key start) := by
  have hseek := decoded_seek h key false
  have hcheck : r.checkKey key = .ok () := by rw [checkKey, if_neg (not_not_intro hwidth)]
  rw [findFrom, hcheck]
  change Decoded _ (r.seek key false >>= _)
  cases hfound : r.seek key false with
  | error e =>
    rw [hfound] at hseek
    exact hseek
  | ok found =>
    cases found with
    | none => exact fun _ hnone => absurd hnone (Option.not_mem_none _)
    | some first =>
      change Decoded _ (if r.entryCount ≤ max first start then _ else _)
      split
      next => exact fun _ hnone => absurd hnone (Option.not_mem_none _)
      next hin =>
        have hentry := decoded_entryAt h (Nat.lt_of_not_le hin)
        change Decoded _ (r.entryAt (max first start) >>= _)
        cases hat : r.entryAt (max first start) with
        | error e =>
          rw [hat] at hentry
          exact hentry
        | ok e =>
          change ∀ hit ∈ if r.order.compare e.key key == .eq then _ else _, _
          intro hit hhit
          split at hhit
          next =>
            cases hhit
            exact ⟨le_max_right _ _, Nat.lt_of_not_le hin⟩
          next => cases hhit

theorem decoded_find {key : Row} (hwidth : key.length = r.header.schema.length) :
    Decoded (fun _ => True) (r.find key) := by
  have hfind := decoded_findFrom h hwidth 0
  rw [find]
  cases hfound : r.findFrom key 0 with
  | error e =>
    rw [hfound] at hfind
    exact hfind
  | ok found => trivial

end Framed

end Reader

/-! ## Scans -/

namespace Scan

variable {r : Reader} {s t : Scan} {content : Bytes}

/-- The scan after so many calls. -/
def after (s : Scan) (n : ℕ) : Scan := (fun t => t.step.2)^[n] s

/-- What draining a scan gives: the items of the calls up to the first one without an item. -/
structure Drains (s : Scan) (items : List (Except Error ℕ)) : Prop where
  drain : (s.drain []).1 = items
  calls : ∀ n x, items[n]? = some x → (s.after n).step.1 = some x
  last : (s.after items.length).step.1 = none

/-- A scan of a reader, with a block at hand that is the one it names. -/
structure Caches (r : Reader) (s : Scan) : Prop where
  reader : s.reader = r
  block : ∀ b es, s.block = some (b, es) → r.readBlock b = .ok es

theorem Caches.entriesOf (h : Caches r s) (block : ℕ) : s.entriesOf block = r.readBlock block := by
  rw [Scan.entriesOf, h.reader]
  split
  next b es hblock =>
    split
    next heq =>
      subst heq
      exact (h.block b es hblock).symm
    next => rfl
  next => rfl

/-- The item of a call is an offset, or the fault of a block that cannot be decoded. -/
theorem Caches.step (hframed : r.Framed content) (h : Caches r s) {x : Except Error ℕ}
    (hstep : s.step = (some x, t)) : Caches r t ∧ Decoded (fun _ => True) x := by
  obtain ⟨hreader, hcached⟩ := h
  subst hreader
  rw [Scan.step] at hstep
  split at hstep
  next => cases hstep
  next hrun =>
    rw [Bool.or_eq_true, decide_eq_true_iff, not_or] at hrun
    have hordinal : s.next < s.reader.entryCount := Nat.lt_of_not_le hrun.2
    have hread := Reader.decoded_readBlock (Reader.div_lt_length hframed hordinal)
    dsimp only at hstep
    rw [Caches.entriesOf ⟨rfl, hcached⟩] at hstep
    cases hblock : s.reader.readBlock (s.next / s.reader.header.loadFactor) with
    | error e =>
      rw [hblock] at hstep hread
      cases hstep
      exact ⟨⟨rfl, hcached⟩, hread⟩
    | ok es =>
      have hslot := Reader.slot_lt_length hframed hordinal hblock
      rw [hblock] at hstep
      dsimp only at hstep
      rw [List.getElem?_eq_getElem hslot] at hstep
      dsimp only at hstep
      split at hstep
      next => cases hstep
      next =>
        cases hstep
        refine ⟨⟨rfl, ?_⟩, trivial⟩
        intro b es' heq
        cases heq
        exact hblock

theorem left_le (h : Caches r s) : s.left ≤ r.entryCount := by
  rw [left, ← h.reader]
  split
  next => exact Nat.zero_le _
  next => exact Nat.sub_le _ _

theorem exists_drains (hframed : r.Framed content) (h : Caches r s) :
    ∃ items, Drains s items ∧ items.length ≤ s.left ∧ ∀ x ∈ items, Decoded (fun _ => True) x := by
  suffices hitems : ∀ done, ∃ items, (s.drain done).1 = done.reverse ++ items ∧
      (∀ n x, items[n]? = some x → (s.after n).step.1 = some x) ∧
      (s.after items.length).step.1 = none ∧ items.length ≤ s.left ∧
      ∀ x ∈ items, Decoded (fun _ => True) x by
    obtain ⟨items, hdrain, hcalls, hlast, hrest⟩ := hitems []
    exact ⟨items, ⟨hdrain, hcalls, hlast⟩, hrest⟩
  induction hleft : s.left using Nat.strong_induction_on generalizing s with
  | _ left ih =>
    subst hleft
    intro done
    rcases hstep : s.step with ⟨_ | x, t⟩
    · refine ⟨[], ?_, nofun, ?_, Nat.zero_le _, nofun⟩
      · rw [drain_of_none hstep, List.append_nil]
      · exact congrArg Prod.fst hstep
    · obtain ⟨hnext, hx⟩ := h.step hframed hstep
      have hless := left_lt_of_step hstep
      have hafter : ∀ n, s.after (n + 1) = t.after n := by
        intro n
        rw [after, Function.iterate_succ_apply, hstep]
        rfl
      obtain ⟨items, hdrain, hcalls, hlast, hlength, hall⟩ := ih t.left hless hnext rfl (x :: done)
      refine ⟨x :: items, ?_, ?_, ?_, ?_, List.forall_mem_cons.mpr ⟨hx, hall⟩⟩
      · rw [drain_of_some hstep, hdrain, List.reverse_cons, List.append_assoc,
          List.singleton_append]
      · intro n y hy
        cases n with
        | zero =>
          cases hy
          exact congrArg Prod.fst hstep
        | succ n =>
          rw [hafter]
          exact hcalls n y hy
      · rw [List.length_cons, hafter]
        exact hlast
      · rw [List.length_cons]
        omega

end Scan

namespace Reader

variable {disk : Disk} {path : String} {content : Bytes} {r : Reader}

theorem decoded_scan (h : r.Framed content) {lower upper : Bound}
    (hlower : lower.HasWidth r.header.schema.length)
    (hupper : upper.HasWidth r.header.schema.length) :
    Decoded (Scan.Caches r) (r.scan lower upper) := by
  have hstart : Decoded (fun _ => True) (r.startOf lower) := by
    have hseek : ∀ key strict, Decoded (fun _ => True) (r.seek key strict) := by
      intro key strict
      have hfound := decoded_seek h key strict
      cases hseek : r.seek key strict with
      | error e =>
        rw [hseek] at hfound
        exact hfound
      | ok found => trivial
    cases lower with
    | unbounded => trivial
    | included key => exact hseek key false
    | excluded key => exact hseek key true
  rw [scan, checkBound_eq_ok hlower, checkBound_eq_ok hupper]
  change Decoded _ (r.startOf lower >>= _)
  cases hfound : r.startOf lower with
  | error e =>
    rw [hfound] at hstart
    exact hstart
  | ok start =>
    refine ⟨rfl, fun b es hblock => ?_⟩
    cases hblock

/-- What can be asked of a reader without harm, whatever is in its bottom level. -/
structure Safe (r : Reader) (content : Bytes) : Prop where
  /-- The bytes of each block lie inside the bottom level and the file, with at least one entry. -/
  spans : ∀ block start stop, r.blockSpan? block = some (start, stop) →
    start < stop ∧ stop ≤ r.bottom.length ∧ r.bottomStart + stop ≤ content.length ∧
      block * r.header.loadFactor < r.entryCount
  bottom : r.bottom = (content.drop r.bottomStart).take r.header.bottomLength
  words : r.top.length * r.header.loadFactor < 2 ^ 64 ∧ content.length < 2 ^ 64
  /-- Each entry has a block in the directory and a slot in it. -/
  slots : ∀ ordinal, ordinal < r.entryCount →
    (∃ span, r.blockSpan? (ordinal / r.header.loadFactor) = some span) ∧
      ∀ es, r.readBlock (ordinal / r.header.loadFactor) = .ok es →
        ordinal % r.header.loadFactor < es.length
  find : ∀ key start, key.length = r.header.schema.length →
    Decoded (fun _ => True) (r.find key) ∧
      Decoded (fun found => ∀ hit ∈ found, start ≤ hit.position ∧ hit.position < r.entryCount)
        (r.findFrom key start)
  findRefused : ∀ key start, key.length ≠ r.header.schema.length →
    r.find key = .error (.invalidKey (.lookupWidth key.length r.header.schema)) ∧
      r.findFrom key start = .error (.invalidKey (.lookupWidth key.length r.header.schema))
  /-- The equality scan of a key and the range scan between two keys are such scans. -/
  scan : ∀ lower upper : Bound, lower.HasWidth r.header.schema.length →
    upper.HasWidth r.header.schema.length →
      Decoded (fun s => ∃ items, Scan.Drains s items ∧ items.length + 1 ≤ r.entryCount + 1 ∧
        ∀ x ∈ items, Decoded (fun _ => True) x) (r.scan lower upper)
  scanRefused : ∀ lower upper : Bound,
    ¬(lower.HasWidth r.header.schema.length ∧ upper.HasWidth r.header.schema.length) →
      ∃ key, (lower.key? = some key ∨ upper.key? = some key) ∧
        key.length ≠ r.header.schema.length ∧
        r.scan lower upper = .error (.invalidKey (.lookupWidth key.length r.header.schema))

theorem Framed.safe (h : r.Framed content) : r.Safe content where
  spans := by
    intro block start stop hspan
    obtain ⟨hblock, hlt, hle⟩ := span_inside h hspan
    have hroom := h.room
    refine ⟨hlt, ?_, by omega, mul_lt_of_lt_length h hblock⟩
    rw [h.bottom, List.length_take, List.length_drop]
    omega
  bottom := h.bottom
  words := by
    have hwords := h.words
    have hpositive := h.positive
    have hmul := Nat.div_mul_le_self (r.entryCount + r.header.loadFactor - 1) r.header.loadFactor
    rw [← h.count] at hmul
    exact ⟨by omega, hwords.2⟩
  slots := by
    intro ordinal hordinal
    refine ⟨?_, fun es => slot_lt_length h hordinal⟩
    rw [blockSpan?, List.getElem?_eq_getElem (div_lt_length h hordinal)]
    exact ⟨_, rfl⟩
  find := fun key start hwidth => ⟨decoded_find h hwidth, decoded_findFrom h hwidth start⟩
  findRefused := by
    intro key start hwidth
    have hcheck : r.checkKey key = .error (.invalidKey (.lookupWidth key.length r.header.schema)) := by
      rw [checkKey, if_pos hwidth]
    have hfind : ∀ start, r.findFrom key start =
        .error (.invalidKey (.lookupWidth key.length r.header.schema)) := by
      intro start
      rw [findFrom, hcheck]
      rfl
    refine ⟨?_, hfind start⟩
    rw [Reader.find, hfind 0]
    rfl
  scan := by
    intro lower upper hlower hupper
    have hscan := decoded_scan h hlower hupper
    cases hfound : r.scan lower upper with
    | error e =>
      rw [hfound] at hscan
      exact hscan
    | ok s =>
      rw [hfound] at hscan
      obtain ⟨items, hdrains, hlength, hall⟩ := Scan.exists_drains h hscan
      exact ⟨items, hdrains, Nat.succ_le_succ (hlength.trans (Scan.left_le hscan)), hall⟩
  scanRefused := fun _ _ => scan_eq_error

/-- An index file that opens is safe to query. -/
theorem safe_of_open (hopen : open? disk path = .ok r) : ∃ number content,
    disk.openEntry path = .ok (.file number content) ∧ r.Safe content := by
  obtain ⟨number, content, hentry, hread⟩ := exists_content_of_open? hopen
  exact ⟨number, content, hentry, (framed_of_ofContent hread).safe⟩

end Reader

namespace Sample

/-- A file whose first block is out of order, which its directory does not show. -/
def disordered : Bytes :=
  match (Writer.fresh "a.idx" file schema specs order 2 false).writeAll
    [([.int4 3], 4), ([.int4 1], 8), ([.int4 5], 12)] with
  | .ok w => w.content
  | .error _ => []

def disorderedDisk : Disk := ⟨[([".", "a.idx"], .file 0 disordered)], 1⟩

end Sample

open Sample in
/-- A key out of its order may be missed, but asking for it does no harm. -/
theorem Reader.safe_of_open_disordered : ∃ r number content,
    open? disorderedDisk "a.idx" = .ok r ∧ r.entryCount = 3 ∧ r.find [.int4 1] = .ok none ∧
      disorderedDisk.openEntry "a.idx" = .ok (.file number content) ∧ r.Safe content := by
  have hfind : ((open? disorderedDisk "a.idx").toOption.map fun r =>
      (r.entryCount, (r.find [.int4 1]).toOption)) = some (3, some none) := by decide +kernel
  obtain ⟨r, hr, hanswers⟩ := Option.map_eq_some_iff.mp hfind
  obtain ⟨hcount, hnone⟩ := Prod.mk.inj hanswers
  have hopen := Except.toOption_eq_some.mp hr
  obtain ⟨number, content, hentry, hsafe⟩ := safe_of_open hopen
  exact ⟨r, number, content, hopen, hcount, Except.toOption_eq_some.mp hnone, hentry, hsafe⟩

end BlockQuery.Index
