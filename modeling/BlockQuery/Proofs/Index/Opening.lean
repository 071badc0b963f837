import BlockQuery.Proofs.Index.Header
import BlockQuery.Proofs.Index.Writing
import BlockQuery.Proofs.Row.Prefix

/-!
# Opening what was written

The content of an index file opens again if its sizes keep to the limits of the
format and the entries are in order.  The reader lists the entries written.
-/

namespace BlockQuery.Index

open BlockQuery.ByteCursor (ahead)

/-! ## The top level -/

/-- The entry as a reader gives it. -/
def topEntry (e : Row × ℕ) : TopEntry := ⟨e.1, e.2⟩

/-- Whether a key is not beyond another one. -/
def Precedes (order : RowOrder) (a b : Row × ℕ) : Prop := (order.compare a.1 b.1).isLE

/-- Of an entry that lies behind the last one only the key is left to check. -/
theorem checkTop_eq_none_iff {h : Header} {order : RowOrder} {i : ℕ} {last? : Option (Row × ℕ)}
    {e : Row × ℕ} (hwidth : e.1.length = h.schema.length) (hinside : e.2 < h.bottomLength)
    (hfirst : last? = none → e.2 = 0) (hbehind : ∀ last ∈ last?, last.2 < e.2) :
    checkTop h order i (last?.map topEntry) (topEntry e) = none ↔
      ∀ last ∈ last?, Precedes order last e := by
  have hkey : ¬(topEntry e).key.length ≠ h.schema.length := not_not_intro hwidth
  have hoffset : ¬h.bottomLength ≤ (topEntry e).offset := Nat.not_le.mpr hinside
  unfold checkTop
  rw [if_neg hkey, if_neg hoffset]
  cases last? with
  | none => exact iff_of_true (if_neg (not_not_intro (hfirst rfl))) nofun
  | some last =>
    have hplace : ¬(topEntry e).offset ≤ (topEntry last).offset := Nat.not_le.mpr (hbehind last rfl)
    simp only [Option.map_some, if_neg hplace, Option.mem_some_iff, forall_eq', Precedes]
    change (if (order.compare last.1 e.1 == .gt) = true then _ else none) = none ↔ _
    cases order.compare last.1 e.1 <;> simp

/-- Whether each key that starts a block is not beyond the one that starts the next block. -/
def SampledInOrder (order : RowOrder) (loadFactor : ℕ) (entries : List (Row × ℕ)) : Prop :=
  ∀ j a b, entries[j * loadFactor]? = some a → entries[(j + 1) * loadFactor]? = some b →
    Precedes order a b

theorem Ascending.sampledInOrder {order : RowOrder} {entries : List (Row × ℕ)}
    (h : Ascending order entries) {loadFactor : ℕ} (hpositive : 0 < loadFactor) :
    SampledInOrder order loadFactor entries := by
  intro j a b ha hb
  obtain ⟨hj, rfl⟩ := List.getElem?_eq_some_iff.mp ha
  obtain ⟨hnext, rfl⟩ := List.getElem?_eq_some_iff.mp hb
  have hlt : j * loadFactor < (j + 1) * loadFactor :=
    Nat.mul_lt_mul_of_pos_right (Nat.lt_succ_self j) hpositive
  exact List.pairwise_iff_getElem.mp h _ _ hj hnext hlt

/-- A top level in front of a reader is read exactly if its keys are in order.  Induct on the entries
that are left; only the last one before them matters. -/
theorem decodeTop_ahead_iff {h : Header} {order : RowOrder} {start : ℕ} {es : List (Row × ℕ)}
    (done : List (Row × ℕ)) (hstorable : ∀ e ∈ es, Storable e)
    (hwidth : ∀ e ∈ es, e.1.length = h.schema.length) (hinside : ∀ e ∈ es, e.2 < h.bottomLength)
    (hfirst : done = [] → ∀ e ∈ es.head?, e.2 = 0)
    (hbehind : (done.head?.toList ++ es).Pairwise fun a b => a.2 < b.2) (p : ℕ)
    {found : List TopEntry} :
    decodeTop h order start es.length (done.map topEntry) (ahead p (es.flatMap encodeEntry)) =
        .ok found ↔
      found = (done.reverse ++ es).map topEntry ∧
        (done.head?.toList ++ es).IsChain (Precedes order) := by
  induction es generalizing done p with
  | nil =>
    have hend : (ahead p []).remaining = 0 := by simp [ahead, ByteCursor.remaining]
    have hchain : (done.head?.toList ++ []).IsChain (Precedes order) := by
      cases done with
      | nil => exact List.IsChain.nil
      | cons last done => exact List.IsChain.singleton last
    rw [List.length_nil, decodeTop, List.flatMap_nil, if_neg (by simp [hend]), List.append_nil,
      List.map_reverse, Except.ok.injEq, eq_comm]
    exact (and_iff_left hchain).symm
  | cons e es ih =>
    obtain ⟨hse, hstorable⟩ := List.forall_mem_cons.mp hstorable
    obtain ⟨hwe, hwidth⟩ := List.forall_mem_cons.mp hwidth
    obtain ⟨hie, hinside⟩ := List.forall_mem_cons.mp hinside
    obtain ⟨-, hnext, hlast⟩ := List.pairwise_append.mp hbehind
    have hchain : (done.head?.toList ++ e :: es).IsChain (Precedes order) ↔
        (∀ last ∈ done.head?, Precedes order last e) ∧ (e :: es).IsChain (Precedes order) := by
      cases done with
      | nil => simp
      | cons last done => simp
    have hcheck : checkTop h order (h.topCount - (es.length + 1)) (done.head?.map topEntry)
        (topEntry e) = none ↔ ∀ last ∈ done.head?, Precedes order last e :=
      checkTop_eq_none_iff hwe hie (fun hnone => hfirst (List.head?_eq_none_iff.mp hnone) e rfl)
        fun last hmem => hlast last (Option.mem_toList.mpr hmem) e List.mem_cons_self
    have hrest := ih (e :: done) hstorable hwidth hinside
      (fun hnil => absurd hnil (List.cons_ne_nil e done)) hnext (p + encodedEntryLength e)
    rw [List.reverse_cons, List.append_assoc, List.singleton_append] at hrest
    rw [hchain, ← hcheck, List.length_cons, decodeTop, List.flatMap_cons, readEntry_ahead hse]
    dsimp only
    rw [List.head?_map, ← topEntry]
    cases checkTop h order (h.topCount - (es.length + 1)) (done.head?.map topEntry)
      (topEntry e) with
    | none => simpa using hrest
    | some damage => simp

/-- An entry that was read took at least the bytes of its offset. -/
theorem readEntry_eq_ok {level : String} {at_ p n : ℕ} {data : Bytes} {key : Row} {c : ByteCursor}
    (h : readEntry level at_ (ahead p data) = .ok (key, n, c)) :
    ∃ taken rest, data = taken ++ rest ∧ c = ahead (p + taken.length) rest ∧ 8 ≤ taken.length := by
  rw [readEntry] at h
  split at h
  next => cases h
  next key' d hkey =>
    split at h
    next => cases h
    next n' d' hoffset =>
      cases h
      obtain ⟨taken, rest, rfl, rfl, -⟩ := Read.follows_row.of_ok hkey
      obtain ⟨taken', rest', rfl, rfl, ⟨hlength, -⟩, -⟩ := (Read.follows_nat 8).of_ok hoffset
      refine ⟨taken ++ taken', rest', (List.append_assoc _ _ _).symm, ?_, ?_⟩
      · rw [List.length_append, Nat.add_assoc]
      · rw [List.length_append, hlength]
        exact Nat.le_add_left _ _

theorem length_le_of_decodeTop {h : Header} {order : RowOrder} {start n p : ℕ}
    {done entries : List TopEntry} {data : Bytes}
    (hdecode : decodeTop h order start n done (ahead p data) = .ok entries) : n ≤ data.length := by
  induction n generalizing done p data with
  | zero => exact Nat.zero_le _
  | succ n ih =>
    rw [decodeTop] at hdecode
    split at hdecode
    next => cases hdecode
    next key offset after hentry =>
      obtain ⟨taken, rest, rfl, rfl, htaken⟩ := readEntry_eq_ok hentry
      split at hdecode
      next => cases hdecode
      next =>
        have hrest := ih hdecode
        rw [List.length_append]
        omega

/-- Room is lacking only for entries that are not there. -/
theorem readTop_eq_ok {h : Header} {order : RowOrder} {start : ℕ} {content : Bytes}
    {entries : List TopEntry} : readTop h order start content = .ok entries ↔
      decodeTop h order start h.topCount [] (.ofBytes content) = .ok entries := by
  rw [readTop]
  split
  next hroom =>
    rw [Bool.and_eq_true, decide_eq_true_eq, decide_eq_true_eq] at hroom
    refine iff_of_false nofun fun hdecode => ?_
    rw [ByteCursor.ofBytes_eq_ahead] at hdecode
    exact absurd (length_le_of_decodeTop hdecode) (Nat.not_le.mpr hroom.2)
  next => exact Iff.rfl

/-! ## Lengths -/

theorem toNat_ofUInt32 (n : UInt32) : (Bytes.ofUInt32 n).toNat = n.toNat :=
  Bytes.toNat_ofNat_of_lt n.toNat_lt

theorem checkSection_checksum (content : Bytes) :
    checkSection content (Bytes.ofUInt32 (checksum content)) = true := by
  rw [checkSection, toNat_ofUInt32, beq_self_eq_true]

theorem addWords?_eq {a b : ℕ} (h : a + b < 2 ^ 64) : addWords? a b = some (a + b) := if_pos h

theorem addWords?_eq_some {a b sum : ℕ} (h : addWords? a b = some sum) : sum = a + b := by
  rw [addWords?] at h
  split at h
  · cases h
    rfl
  · cases h

theorem lt_of_addWords? {a b sum : ℕ} (h : addWords? a b = some sum) : sum < 2 ^ 64 := by
  rw [addWords?] at h
  split at h
  next hroom =>
    cases h
    exact hroom
  next => cases h

theorem topCountFor?_eq {count loadFactor : ℕ} (hpositive : 0 < loadFactor)
    (hroom : count + loadFactor < 2 ^ 64) :
    topCountFor? count loadFactor = some ((count + loadFactor - 1) / loadFactor) := by
  have hwidth : max loadFactor 1 = loadFactor := Nat.max_eq_left hpositive
  rw [topCountFor?, hwidth, addWords?_eq hroom, Option.map_some]

theorem fileLength?_eq {h : Header} {n : ℕ}
    (hroom : n + h.topLength + 4 + h.bottomLength + 4 < 2 ^ 64) :
    h.fileLength? n = some (n + h.topLength + 4 + h.bottomLength + 4) := by
  have htop : n + h.topLength < 2 ^ 64 := by omega
  have hsum : n + h.topLength + 4 < 2 ^ 64 := by omega
  have hbottom : n + h.topLength + 4 + h.bottomLength < 2 ^ 64 := by omega
  simp only [Header.fileLength?, Option.bind_eq_bind, Option.bind_some, addWords?_eq htop,
    addWords?_eq hsum, addWords?_eq hbottom, addWords?_eq hroom]

theorem fileLength?_eq_some {h : Header} {n size : ℕ} (hsize : h.fileLength? n = some size) :
    size = n + h.topLength + 4 + h.bottomLength + 4 := by
  obtain ⟨a, ha, hsize⟩ := Option.bind_eq_some_iff.mp hsize
  obtain ⟨b, hb, hsize⟩ := Option.bind_eq_some_iff.mp hsize
  obtain ⟨c, hc, hsize⟩ := Option.bind_eq_some_iff.mp hsize
  rw [addWords?_eq_some hsize, addWords?_eq_some hc, addWords?_eq_some hb, addWords?_eq_some ha]

theorem lt_of_fileLength? {h : Header} {n size : ℕ} (hsize : h.fileLength? n = some size) :
    size < 2 ^ 64 := by
  obtain ⟨_, -, hsize⟩ := Option.bind_eq_some_iff.mp hsize
  obtain ⟨_, -, hsize⟩ := Option.bind_eq_some_iff.mp hsize
  obtain ⟨_, -, hsize⟩ := Option.bind_eq_some_iff.mp hsize
  exact lt_of_addWords? hsize

theorem length_flatMap_le {α : Type} {bytes : α → Bytes} {xs : List α} {n : ℕ}
    (h : ∀ x ∈ xs, (bytes x).length ≤ n) : (xs.flatMap bytes).length ≤ xs.length * n := by
  induction xs with
  | nil => exact Nat.zero_le _
  | cons x xs ih =>
    obtain ⟨hx, hxs⟩ := List.forall_mem_cons.mp h
    have hrest := ih hxs
    rw [List.flatMap_cons, List.length_append, List.length_cons, Nat.succ_mul]
    omega

/-- A header is not longer than its columns and sort specs make it. -/
theorem length_body_lt_of_columns {h : Header}
    (hroom : (h.schema.flatMap Header.encodeColumn).length + h.specs.length * 4 + 64 ≤ 2 ^ 33) :
    h.body.length + 12 < 2 ^ 33 := by
  have hspecs : (h.specs.flatMap (Header.specBytes h.schema)).length ≤ h.specs.length * 4 := by
    apply length_flatMap_le
    intro s _
    rw [Header.specBytes, Header.encodeSpec]
    split
    · exact Nat.zero_le 4
    · exact le_rfl
  simp only [Header.body, Header.fixedFields, List.length_append, Bytes.length_ofNat]
  have hmagic : magic.length = 4 := rfl
  omega

theorem length_encodeColumn (c : Column) :
    (Header.encodeColumn c).length = (Bytes.ofText c.name).length + 5 := by
  rw [Header.encodeColumn, Bytes.ofSizedText, List.length_append, List.length_append,
    Bytes.length_ofNat, List.length_singleton]
  omega

theorem length_body_lt {h : Header} (hfits : h.Fits) : h.body.length + 12 < 2 ^ 33 := by
  have hcolumns : (h.schema.flatMap Header.encodeColumn).length ≤ h.schema.length * 65541 := by
    apply length_flatMap_le
    intro c hc
    have hname := hfits.names c hc
    rw [maxNameLength] at hname
    rw [length_encodeColumn]
    omega
  have hcount := hfits.columns
  have hcount' := hfits.specs
  apply length_body_lt_of_columns
  omega

/-! ## The file of a writer -/

namespace Writer

/-- The limits of lengths in 64 bits. -/
structure Sized (w : Writer) : Prop where
  loadFactor : w.loadFactor < 2 ^ 32
  sections : w.topSection.length + w.bottomSection.length + 2 ^ 33 ≤ 2 ^ 64

/-- The limits of the file format. -/
structure Fits (w : Writer) : Prop extends Sized w where
  columns : w.schema.length ≤ 65535
  specs : w.specs.length ≤ 65535
  names : ∀ c ∈ w.schema, (Bytes.ofText c.name).length ≤ maxNameLength

def header (w : Writer) : Header :=
  ⟨w.loadFactor, w.entryCount, (w.entryCount + w.loadFactor - 1) / w.loadFactor,
    w.topSection.length, w.bottomSection.length, w.schema, w.specs⟩

def content (w : Writer) : Bytes :=
  w.header.bytes ++ encodeSection w.topSection ++ encodeSection w.bottomSection

/-- The reader of the file of a writer, with a top level. -/
def reader (w : Writer) (path : String) (top : List TopEntry) : Reader :=
  ⟨path, w.header.named, ⟨w.order.keys, w.header.named.specs⟩, top,
    w.header.bytes.length + w.topSection.length + 4, w.bottomSection⟩

variable {w : Writer} {entries : List (Row × ℕ)}

namespace Holds

theorem bottomSection_eq (h : w.Holds entries) : w.bottomSection = entries.flatMap encodeEntry := by
  rw [bottomSection, h.bottom, List.reverse_reverse]

theorem length_bottomSection (h : w.Holds entries) :
    w.bottomSection.length = placeOf entries entries.length := by
  rw [h.bottomSection_eq, placeOf, List.take_length]

/-- There is one sample for each block. -/
theorem length_top (h : w.Holds entries) :
    w.top.length = (w.entryCount + w.loadFactor - 1) / w.loadFactor := by
  have hpositive := h.positive
  apply Nat.le_antisymm
  · rw [h.length_top_le_iff, h.count]
    have hdiv := Nat.div_add_mod' (entries.length + w.loadFactor - 1) w.loadFactor
    have hmod := Nat.mod_lt (entries.length + w.loadFactor - 1) h.positive
    omega
  · have hall := h.length_top_le_iff.mp le_rfl
    rw [Nat.div_le_iff_le_mul_add_pred h.positive, h.count, Nat.mul_comm]
    omega

theorem count_lt (h : w.Holds entries) (hsized : w.Sized) :
    w.entryCount + w.loadFactor < 2 ^ 64 := by
  have hcount := length_le_placeOf entries
  have hsections := hsized.sections
  have hfactor := hsized.loadFactor
  rw [h.length_bottomSection] at hsections
  rw [h.count]
  omega

theorem header?_eq (h : w.Holds entries) (hcount : w.entryCount + w.loadFactor < 2 ^ 64) :
    w.header? = some w.header := by
  rw [header?, topCountFor?_eq h.positive hcount]
  rfl

theorem sized_header_of_lt (h : w.Holds entries) (hfactor : w.loadFactor < 2 ^ 32)
    (hcount : w.entryCount + w.loadFactor < 2 ^ 64) (htop : w.topSection.length < 2 ^ 64)
    (hbottom : w.bottomSection.length < 2 ^ 64) : w.header.Sized := by
  have hpositive := h.positive
  have hle : (w.entryCount + w.loadFactor - 1) / w.loadFactor ≤ w.entryCount + w.loadFactor - 1 :=
    Nat.div_le_self _ _
  exact ⟨hfactor, (Nat.le_add_right _ _).trans_lt hcount, hle.trans_lt (by omega), htop, hbottom⟩

theorem sized_header (h : w.Holds entries) (hsized : w.Sized) : w.header.Sized := by
  have hsections := hsized.sections
  exact h.sized_header_of_lt hsized.loadFactor (h.count_lt hsized) (by omega) (by omega)

theorem fits_header (h : w.Holds entries) (hfits : w.Fits) : w.header.Fits :=
  ⟨h.sized_header hfits.toSized, hfits.columns, hfits.specs, hfits.names⟩

theorem check_header (h : w.Holds entries) (hcount : w.entryCount + w.loadFactor < 2 ^ 64)
    (hschema : w.schema ≠ []) (hspecs : w.specs ≠ []) : w.header.check = .ok () := by
  have hfactor : w.header.loadFactor ≠ 0 := Nat.ne_of_gt h.positive
  have htop : topCountFor? w.header.entryCount w.header.loadFactor = some w.header.topCount :=
    topCountFor?_eq h.positive hcount
  exact Header.check_eq_ok hfactor htop hschema hspecs

theorem length_content (w : Writer) : w.content.length =
    w.header.bytes.length + w.header.topLength + 4 + w.header.bottomLength + 4 := by
  simp only [content, encodeSection, Bytes.ofUInt32, List.length_append, Bytes.length_ofNat]
  change _ = _ + w.topSection.length + 4 + w.bottomSection.length + 4
  omega

theorem length_content_lt (hsized : w.Sized) (hbody : w.header.body.length + 12 < 2 ^ 33) :
    w.content.length < 2 ^ 64 := by
  have hsections := hsized.sections
  rw [length_content, Header.length_bytes]
  change _ + w.topSection.length + 4 + w.bottomSection.length + 4 < _
  omega

theorem fileLength?_header (hlength : w.content.length < 2 ^ 64) :
    w.header.fileLength? w.header.bytes.length = some w.content.length := by
  rw [length_content] at hlength ⊢
  exact fileLength?_eq hlength

/-- What is written is always the header with the two sections, and nothing in it leaves 64 bits. -/
theorem image_spec (h : w.Holds entries)
    (horder : RowOrder.ofSpecs w.schema w.specs = .ok w.order) {content : Bytes}
    {summary : Summary} (himage : w.image = .ok (content, summary)) :
    content = w.content ∧ w.entryCount + w.loadFactor < 2 ^ 64 ∧ w.content.length < 2 ^ 64 := by
  have hencode : w.header.encode = .ok w.header.bytes := Header.encode_eq_ok horder
  rw [image] at himage
  split at himage
  next => cases himage
  next header hheader =>
    obtain ⟨topCount, hcount, -⟩ := Option.map_eq_some_iff.mp hheader
    have hwords : w.entryCount + w.loadFactor < 2 ^ 64 := by
      obtain ⟨sum, hsum, -⟩ := Option.map_eq_some_iff.mp hcount
      have hlt := lt_of_addWords? hsum
      rw [addWords?_eq_some hsum, Nat.max_eq_left h.positive] at hlt
      exact hlt
    cases hheader.symm.trans (h.header?_eq hwords)
    rw [hencode] at himage
    dsimp only at himage
    split at himage
    next => cases himage
    next size hsize =>
      cases himage
      refine ⟨rfl, hwords, ?_⟩
      rw [length_content, ← fileLength?_eq_some hsize]
      exact lt_of_fileLength? hsize

/-- The whole file is written if the lengths fit. -/
theorem image_eq_ok (h : w.Holds entries) (hsized : w.Sized)
    (hbody : w.header.body.length + 12 < 2 ^ 33)
    (horder : RowOrder.ofSpecs w.schema w.specs = .ok w.order) :
    w.image = .ok (w.content,
      ⟨w.path, w.entryCount, w.header.topCount, w.loadFactor, w.content.length⟩) := by
  have hheader := h.header?_eq (h.count_lt hsized)
  have hencode : w.header.encode = .ok w.header.bytes := Header.encode_eq_ok horder
  rw [image, hheader]
  dsimp only
  rw [hencode]
  dsimp only
  rw [fileLength?_header (length_content_lt hsized hbody)]
  rfl

/-! ## Opening -/

theorem exists_entry_of_mem_top (h : w.Holds entries) {t : Row × ℕ} (ht : t ∈ w.top.reverse) :
    ∃ j e, entries[j * w.loadFactor]? = some e ∧ t = (e.1, placeOf entries (j * w.loadFactor)) := by
  obtain ⟨j, hj⟩ := List.getElem?_of_mem ht
  rw [h.top] at hj
  obtain ⟨e, he, rfl⟩ := Option.map_eq_some_iff.mp hj
  exact ⟨j, e, he, rfl⟩

/-- Each block starts behind the one before it. -/
theorem pairwise_place_top (h : w.Holds entries) :
    w.top.reverse.Pairwise fun a b => a.2 < b.2 := by
  apply List.pairwise_iff_getElem.mpr
  intro i j hi hj hij
  have hgeti := List.getElem?_eq_getElem hi
  have hgetj := List.getElem?_eq_getElem hj
  rw [h.top] at hgeti hgetj
  obtain ⟨a, ha, hai⟩ := Option.map_eq_some_iff.mp hgeti
  obtain ⟨b, hb, hbj⟩ := Option.map_eq_some_iff.mp hgetj
  have hlt : i * w.loadFactor < j * w.loadFactor := Nat.mul_lt_mul_of_pos_right hij h.positive
  rw [← hai, ← hbj]
  exact placeOf_lt hlt (List.getElem?_eq_some_iff.mp ha).1

/-- The sampled keys are in order if each is not beyond the next one. -/
theorem isChain_top_iff (h : w.Holds entries) {order : RowOrder} :
    w.top.reverse.IsChain (Precedes order) ↔ SampledInOrder order w.loadFactor entries := by
  have hsample : ∀ (j : ℕ) (t : Row × ℕ), w.top.reverse[j]? = some t ↔ ∃ e,
      entries[j * w.loadFactor]? = some e ∧ (e.1, placeOf entries (j * w.loadFactor)) = t := by
    intro j t
    rw [h.top, Option.map_eq_some_iff]
  rw [List.isChain_iff_getElem]
  constructor
  · intro hchain j a b ha hb
    have hj := (hsample j _).mpr ⟨a, ha, rfl⟩
    have hnext := (hsample (j + 1) _).mpr ⟨b, hb, rfl⟩
    obtain ⟨hlt, hgetj⟩ := List.getElem?_eq_some_iff.mp hj
    obtain ⟨hlt', hget⟩ := List.getElem?_eq_some_iff.mp hnext
    have hprecedes := hchain j hlt'
    rw [hgetj, hget] at hprecedes
    exact hprecedes
  · intro hsampled j hj
    obtain ⟨a, ha, hkey⟩ :=
      (hsample j _).mp (List.getElem?_eq_getElem (Nat.lt_of_succ_lt hj))
    obtain ⟨b, hb, hnext⟩ := (hsample (j + 1) _).mp (List.getElem?_eq_getElem hj)
    rw [← hkey, ← hnext]
    exact hsampled j a b ha hb

theorem head?_top (h : w.Holds entries) {t : Row × ℕ} (ht : w.top.reverse.head? = some t) :
    t.2 = 0 := by
  rw [List.head?_eq_getElem?, h.top, Nat.zero_mul] at ht
  obtain ⟨e, _, rfl⟩ := Option.map_eq_some_iff.mp ht
  rfl

/-- The top level of a writer is read exactly if the sampled keys are in order. -/
theorem readTop_topSection_iff (h : w.Holds entries) (hbottom : w.bottomSection.length < 2 ^ 64)
    (hkeys : ∀ t ∈ w.top.reverse, t.1.Storable) (specs : List SortSpec) (start : ℕ)
    {found : List TopEntry} :
    readTop w.header.named ⟨w.order.keys, specs⟩ start w.topSection = .ok found ↔
      found = w.top.reverse.map topEntry ∧ SampledInOrder w.order w.loadFactor entries := by
  have hcount : w.header.named.topCount = w.top.reverse.length := by
    rw [List.length_reverse, h.length_top]
    rfl
  have hinside : ∀ t ∈ w.top.reverse, t.2 < w.bottomSection.length := by
    intro t ht
    obtain ⟨j, e, he, rfl⟩ := h.exists_entry_of_mem_top ht
    have hlt := (List.getElem?_eq_some_iff.mp he).1
    exact (placeOf_lt hlt hlt).trans_eq h.length_bottomSection.symm
  have hwidth : ∀ t ∈ w.top.reverse, t.1.length = w.schema.length := by
    intro t ht
    obtain ⟨j, e, he, rfl⟩ := h.exists_entry_of_mem_top ht
    exact h.width e (List.mem_of_getElem? he)
  have hstorable : ∀ t ∈ w.top.reverse, Storable t :=
    fun t ht => ⟨hkeys t ht, (hinside t ht).trans hbottom⟩
  rw [readTop_eq_ok, hcount, topSection, ByteCursor.ofBytes_eq_ahead, ← h.isChain_top_iff]
  exact decodeTop_ahead_iff [] hstorable hwidth hinside (fun _ _ => h.head?_top)
    h.pairwise_place_top 0

theorem take_section (content ys : Bytes) :
    (encodeSection content ++ ys).take content.length = content := by
  rw [encodeSection, List.append_assoc, List.take_left]

theorem drop_section (content ys : Bytes) :
    (encodeSection content ++ ys).drop content.length =
      Bytes.ofUInt32 (checksum content) ++ ys := by
  rw [encodeSection, List.append_assoc, List.drop_left]

theorem take_encodeSection (content : Bytes) :
    (encodeSection content).take content.length = content := by
  have htake := take_section content []
  rwa [List.append_nil] at htake

theorem take_checksum (sum : UInt32) (ys : Bytes) :
    (Bytes.ofUInt32 sum ++ ys).take 4 = Bytes.ofUInt32 sum :=
  List.take_left' (Bytes.length_ofNat 4 sum.toNat)

theorem drop_checksum (sum : UInt32) (ys : Bytes) :
    (Bytes.ofUInt32 sum ++ ys).drop 4 = ys :=
  List.drop_left' (Bytes.length_ofNat 4 sum.toNat)

theorem decode_content (h : w.Holds entries) (hfits : w.header.Fits)
    (hcount : w.entryCount + w.loadFactor < 2 ^ 64) (hschema : w.schema ≠ [])
    (hspecs : w.specs ≠ []) (horder : RowOrder.ofSpecs w.schema w.specs = .ok w.order) :
    Header.decode w.content = .ok (w.header.named, w.header.bytes.length) := by
  rw [content, List.append_assoc]
  exact Header.decode_bytes_append hfits horder (h.check_header hcount hschema hspecs) _

theorem drop_content (w : Writer) : w.content.drop w.header.bytes.length =
    encodeSection w.topSection ++ encodeSection w.bottomSection := by
  rw [content, List.append_assoc, List.drop_left]

/-- Of what was written all but the top level is always read. -/
theorem ofContent_eq (h : w.Holds entries) (hfits : w.header.Fits)
    (hcount : w.entryCount + w.loadFactor < 2 ^ 64) (hlength : w.content.length < 2 ^ 64)
    (hschema : w.schema ≠ []) (hspecs : w.specs ≠ [])
    (horder : RowOrder.ofSpecs w.schema w.specs = .ok w.order) (path : String) :
    Reader.ofContent path w.content =
      (readTop w.header.named ⟨w.order.keys, w.header.named.specs⟩ w.header.bytes.length
        w.topSection).map (w.reader path) := by
  have hfile : w.header.named.fileLength? w.header.bytes.length = some w.content.length :=
    fileLength?_header hlength
  have hnamed : RowOrder.ofSpecs w.header.named.schema w.header.named.specs =
      .ok ⟨w.order.keys, w.header.named.specs⟩ := RowOrder.ofSpecs_named horder
  rw [Reader.ofContent, h.decode_content hfits hcount hschema hspecs horder]
  dsimp only
  rw [hfile]
  dsimp only
  rw [if_neg (not_not_intro rfl), hnamed]
  dsimp only
  have htopLength : w.header.named.topLength = w.topSection.length := rfl
  have hbottomLength : w.header.named.bottomLength = w.bottomSection.length := rfl
  have hrest : ((encodeSection w.bottomSection).drop w.bottomSection.length).take 4 =
      Bytes.ofUInt32 (checksum w.bottomSection) := by
    have hdrop := drop_section w.bottomSection []
    rw [List.append_nil] at hdrop
    rw [hdrop, take_checksum]
  rw [drop_content, htopLength, hbottomLength, take_section, drop_section, take_checksum,
    drop_checksum, take_encodeSection, hrest, checkSection_checksum, checkSection_checksum]
  cases readTop w.header.named ⟨w.order.keys, w.header.named.specs⟩ w.header.bytes.length
    w.topSection <;> rfl

/-- A reader of what was written lists the entries. -/
theorem lists_reader (h : w.Holds entries) (hstorable : ∀ e ∈ entries, Storable e)
    (path : String) : (w.reader path (w.top.reverse.map topEntry)).Lists entries := by
  refine ⟨h.positive, h.count, h.length_bottomSection, h.bottomSection_eq, ?_, h.width, hstorable⟩
  intro j
  rw [reader, List.getElem?_map, h.top, Option.map_map]
  rfl

theorem storable_key_top (h : w.Holds entries) (hstorable : ∀ e ∈ entries, Storable e) :
    ∀ t ∈ w.top.reverse, t.1.Storable := by
  intro t ht
  obtain ⟨j, e, he, rfl⟩ := h.exists_entry_of_mem_top ht
  exact (hstorable e (List.mem_of_getElem? he)).key

/-- The reader of what a writer of entries in order has written lists them. -/
theorem ofContent_content (h : w.Holds entries) (hfits : w.Fits) (hschema : w.schema ≠ [])
    (hspecs : w.specs ≠ []) (horder : RowOrder.ofSpecs w.schema w.specs = .ok w.order)
    (hascending : Ascending w.order entries) (hstorable : ∀ e ∈ entries, Storable e)
    (path : String) :
    ∃ r, Reader.ofContent path w.content = .ok r ∧ r.Lists entries ∧
      r.header = w.header.named ∧ r.order.keys = w.order.keys := by
  have hsections := hfits.sections
  have hlength := length_content_lt hfits.toSized (length_body_lt (h.fits_header hfits))
  have hbottom : w.bottomSection.length < 2 ^ 64 := by omega
  have htop := (h.readTop_topSection_iff hbottom (h.storable_key_top hstorable)
    w.header.named.specs w.header.bytes.length).mpr
      ⟨rfl, hascending.sampledInOrder h.positive⟩
  refine ⟨w.reader path (w.top.reverse.map topEntry), ?_, h.lists_reader hstorable path, rfl, rfl⟩
  rw [h.ofContent_eq (h.fits_header hfits) (h.count_lt hfits.toSized) hlength hschema hspecs
    horder, htop]
  rfl

end Holds

end Writer

end BlockQuery.Index
