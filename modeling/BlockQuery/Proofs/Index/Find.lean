import BlockQuery.Proofs.Index.Building

/-!
# Lookups of a key

A lookup is a linear search: from any place on it finds the first entry with the key.
The search by halving gives the first entry with the key at all; since equal keys stand
together, the later one of this place and the place to start from is right.  Lookups that
go on behind each hit walk through the entries that an equality scan finds.
-/

namespace BlockQuery.Index

/-- The first entry with a key from a place on. -/
def linearSearch (order : RowOrder) (entries : List (Row × ℕ)) (key : Row) (start : ℕ) :
    Option Reader.Hit :=
  (entries.zipIdx.find? fun (e, i) => start ≤ i && order.compare e.1 key == .eq).map
    fun (e, i) => ⟨i, e.2⟩

/-- The hits of lookups from a place on, each one behind the last hit, until nothing is found. -/
inductive Walk (r : Reader) (key : Row) : ℕ → List Reader.Hit → Prop
  | last {start : ℕ} : r.findFrom key start = .ok none → Walk r key start []
  | hit {start : ℕ} {hit : Reader.Hit} {rest : List Reader.Hit} :
      r.findFrom key start = .ok (some hit) → Walk r key (hit.position + 1) rest →
        Walk r key start (hit :: rest)

/-! ## Searching between two places -/

section Between

variable {α : Type} {xs : List α} {lo hi : ℕ}

/-- A linear search for what holds just between two places finds the first of them. -/
theorem find?_zipIdx_eq {p : α × ℕ → Bool} (hhi : hi ≤ xs.length)
    (hp : ∀ i x, xs[i]? = some x → (p (x, i) = true ↔ lo ≤ i ∧ i < hi)) :
    xs.zipIdx.find? p = if lo < hi then xs[lo]?.map (·, lo) else none := by
  split
  next hlt =>
    have hlength : lo < xs.length := hlt.trans_le hhi
    rw [List.getElem?_eq_getElem hlength, Option.map_some,
      List.find?_eq_some_iff_getElem]
    refine ⟨(hp lo _ (List.getElem?_eq_getElem hlength)).mpr ⟨le_rfl, hlt⟩, lo, ?_, ?_, ?_⟩
    · rwa [List.length_zipIdx]
    · rw [List.getElem_zipIdx, Nat.zero_add]
    · intro j hj
      have hjlength : j < xs.length := hj.trans hlength
      rw [List.getElem_zipIdx, Nat.zero_add, Bool.not_eq_true', Bool.eq_false_iff]
      intro hpj
      have hbounds := (hp j _ (List.getElem?_eq_getElem hjlength)).mp hpj
      omega
  next hge =>
    apply List.find?_eq_none.mpr
    rintro ⟨x, i⟩ hmem hpi
    have hx := List.getElem?_of_mem hmem
    obtain ⟨j, hj⟩ := hx
    rw [List.getElem?_zipIdx] at hj
    obtain ⟨y, hy, heq⟩ := Option.map_eq_some_iff.mp hj
    cases heq
    rw [Nat.zero_add] at hpi
    have hbounds := (hp j _ hy).mp hpi
    omega

theorem SplitsAt.take_eq_filter {before : α → Bool} {k : ℕ} (h : SplitsAt before xs k) :
    xs.take k = xs.filter before := by
  have hall : ∀ x ∈ xs.take k, before x = true := by
    intro x hx
    obtain ⟨i, hi⟩ := List.getElem?_of_mem hx
    obtain ⟨hlt, -⟩ := List.getElem?_eq_some_iff.mp hi
    rw [List.length_take] at hlt
    rw [List.getElem?_take_of_lt (by omega)] at hi
    exact (h.iff_lt i x hi).mpr (by omega)
  have hnone : ∀ x ∈ xs.drop k, ¬before x = true := by
    rw [h.drop_eq_filter]
    intro x hx
    simpa using (List.mem_filter.mp hx).2
  conv_rhs => rw [← List.take_append_drop k xs, List.filter_append,
    List.filter_eq_self.mpr hall, List.filter_eq_nil_iff.mpr hnone, List.append_nil]

end Between

/-! ## Finding -/

section Finding

variable {types : ℕ → DataType} {r : Reader} {order : RowOrder} {entries : List (Row × ℕ)}
  {key : Row}

/-- Where the entries with a key start and where they end. -/
structure KeyBetween (order : RowOrder) (entries : List (Row × ℕ)) (key : Row) (lo hi : ℕ) :
    Prop where
  below : SplitsAt (fun e : Row × ℕ => order.compare e.1 key == .lt) entries lo
  upTo : SplitsAt (fun e : Row × ℕ => (order.compare e.1 key).isLE) entries hi

theorem exists_keyBetween (hascending : Ascending order entries)
    (htyped : ∀ e ∈ entries, order.Typed types e.1) (hkey : order.Typed types key) :
    ∃ lo hi, KeyBetween order entries key lo hi := by
  have hsearchable := searchable_of_typed htyped hkey
  exact ⟨_, _, (holdsFirst_lt hascending hsearchable).splitsAt,
    (holdsFirst_isLE hascending hsearchable).splitsAt⟩

namespace KeyBetween

variable {lo hi : ℕ} (h : KeyBetween order entries key lo hi)
include h

theorem compare_eq_iff {i : ℕ} {e : Row × ℕ} (he : entries[i]? = some e) :
    order.compare e.1 key = .eq ↔ lo ≤ i ∧ i < hi := by
  have hbelow := h.below.iff_lt i e he
  have hupTo := h.upTo.iff_lt i e he
  rw [← hupTo, ← Nat.not_lt, ← hbelow]
  cases order.compare e.1 key <;> decide

theorem linearSearch_eq (start : ℕ) : linearSearch order entries key start =
    if max lo start < hi then entries[max lo start]?.map fun e => ⟨max lo start, e.2⟩
    else none := by
  have hfind := @find?_zipIdx_eq _ entries (max lo start) hi
    (fun x => decide (start ≤ x.2) && order.compare x.1.1 key == .eq) h.upTo.le_length (by
      intro i e he
      rw [Bool.and_eq_true, decide_eq_true_iff, beq_iff_eq, h.compare_eq_iff he]
      omega)
  rw [linearSearch, hfind]
  split
  next => rw [Option.map_map]; rfl
  next => rfl

theorem filter_eq : entries.filter (fun e => order.compare e.1 key == .eq) =
    (entries.take hi).drop lo := by
  have hle : lo ≤ hi := by
    by_contra hgt
    have hlength := h.below.le_length
    have hlast := List.getElem?_eq_getElem (show hi < entries.length by omega)
    have hbelow := (h.below.iff_lt hi _ hlast).mpr (by omega)
    have hupTo := h.upTo.iff_lt hi _ hlast
    rw [eq_of_beq hbelow] at hupTo
    exact absurd (hupTo.mp rfl) (lt_irrefl hi)
  have hwindow := h.below.window 0 hi
  have hlength := h.upTo.le_length
  have hlo : min (lo - 0) (min hi (entries.length - 0)) = lo := by omega
  rw [List.drop_zero, hlo] at hwindow
  rw [hwindow.drop_eq_filter, h.upTo.take_eq_filter, List.filter_filter]
  apply List.filter_congr
  intro e _
  cases order.compare e.1 key <;> rfl

variable (hlists : r.Lists entries) (hkeys : r.order.keys = order.keys)
  (hwidth : key.length = r.header.schema.length)
include hlists hkeys hwidth

theorem findFrom_eq (start : ℕ) :
    r.findFrom key start = .ok (linearSearch order entries key start) := by
  have hcompare : r.order.compare = order.compare := RowOrder.compare_congr hkeys
  have hbefore : ∀ c, r.isBefore key false c = (order.compare c key == .lt) := by
    intro c
    rw [Reader.isBefore, hcompare]
    rfl
  have hsplit : SplitsAt (fun e : Row × ℕ => r.isBefore key false e.1) entries lo := by
    simpa only [hbefore] using h.below
  have hseek := seek_eq hlists hsplit
  have hcheck : r.checkKey key = .ok () := by rw [Reader.checkKey, if_neg (not_not_intro hwidth)]
  have hcount : r.entryCount = entries.length := hlists.count
  rw [Reader.findFrom, hcheck, hseek, h.linearSearch_eq]
  have hupTo := h.upTo.le_length
  split
  next hlt =>
    change (if r.entryCount ≤ max lo start then _ else _) = _
    rw [hcount]
    split
    next hpast => rw [if_neg (by omega)]; rfl
    next hin =>
      -- the entry there has the key just if the entries with the key go on to it
      have hposition : max lo start < entries.length := by omega
      obtain ⟨es, hblock, hentry⟩ := getElem?_readBlock hlists hposition
      have hat := List.getElem?_eq_getElem hposition
      have hiff := h.compare_eq_iff hat
      rw [Reader.entryAt, hblock]
      dsimp only
      rw [hentry, hat]
      change Except.ok (if (r.order.compare (bottomEntry entries[max lo start]).key key == .eq) = true
        then _ else _) = _
      rw [hcompare, bottomEntry]
      by_cases hend : max lo start < hi
      · rw [if_pos (beq_iff_eq.mpr (hiff.mpr ⟨le_max_left lo start, hend⟩)), if_pos hend]
        rfl
      · rw [if_neg, if_neg hend]
        intro heq
        exact hend (hiff.mp (eq_of_beq heq)).2
  next hend =>
    rw [if_neg (by omega)]
    rfl

/-- The hits from a place on, with the offsets of the entries from there on to the last one
with the key. -/
theorem exists_walk (start : ℕ) : ∃ hits, Walk r key start hits ∧
    hits.map (·.offset) = ((entries.take hi).drop (max lo start)).map Prod.snd ∧
      ∀ n, hi - max lo start < n → r.hitsFrom key n start = .ok hits := by
  have hlength : (entries.take hi).length = hi := by
    rw [List.length_take, Nat.min_eq_left h.upTo.le_length]
  have hfind := h.findFrom_eq hlists hkeys hwidth start
  rw [h.linearSearch_eq] at hfind
  induction hleft : hi - max lo start generalizing start with
  | zero =>
    rw [if_neg (by omega)] at hfind
    refine ⟨[], .last hfind, ?_, ?_⟩
    · rw [List.drop_eq_nil_of_le (by omega)]
      rfl
    · intro n hn
      cases n with
      | zero => exact absurd hn (Nat.not_lt_zero 0)
      | succ n =>
        rw [Reader.hitsFrom, hfind]
        rfl
  | succ left ih =>
    have hlt : max lo start < hi := by omega
    have hposition : max lo start < entries.length := hlt.trans_le h.upTo.le_length
    rw [if_pos hlt, List.getElem?_eq_getElem hposition, Option.map_some] at hfind
    obtain ⟨rest, hwalk, hoffsets, hrun⟩ := ih (max lo start + 1)
      (by rw [h.findFrom_eq hlists hkeys hwidth, h.linearSearch_eq]) (by omega)
    have hnext : max lo (max lo start + 1) = max lo start + 1 := by omega
    refine ⟨_, .hit hfind hwalk, ?_, ?_⟩
    · have hdrop : (entries.take hi).drop (max lo start) =
          entries[max lo start] :: (entries.take hi).drop (max lo start + 1) := by
        rw [List.drop_eq_getElem_cons (hlt.trans_eq hlength.symm), List.getElem_take]
      rw [List.map_cons, hoffsets, hnext, hdrop, List.map_cons]
    · intro n hn
      cases n with
      | zero => exact absurd hn (Nat.not_lt_zero _)
      | succ n =>
        rw [Reader.hitsFrom, hfind]
        change (do return _ :: (← r.hitsFrom key n (max lo start + 1))) = _
        rw [hrun n (by omega)]
        rfl

end KeyBetween

/-- What lookups of a key find. -/
structure Finds (r : Reader) (order : RowOrder) (entries : List (Row × ℕ)) (key : Row) : Prop where
  findFrom : ∀ start, r.findFrom key start = .ok (linearSearch order entries key start)
  find : r.find key = .ok ((linearSearch order entries key 0).map (·.offset))
  walk : ∃ hits, Walk r key 0 hits ∧ r.hits key = .ok hits ∧
    (r.scanEqual key).bind Scan.offsets = .ok (hits.map (·.offset))

/-- Lookups in entries in order agree with a linear search, and with an equality scan. -/
theorem finds_of_lists (hlists : r.Lists entries) (hkeys : r.order.keys = order.keys)
    (hascending : Ascending order entries) (htyped : ∀ e ∈ entries, order.Typed types e.1)
    (hkey : order.Typed types key) (hwidth : key.length = r.header.schema.length) :
    Finds r order entries key := by
  obtain ⟨lo, hi, hbetween⟩ := exists_keyBetween hascending htyped hkey
  have hfind := hbetween.findFrom_eq hlists hkeys hwidth
  refine ⟨hfind, ?_, ?_⟩
  · rw [Reader.find, hfind]
    rfl
  · obtain ⟨hits, hwalk, hoffsets, hrun⟩ := hbetween.exists_walk hlists hkeys hwidth 0
    have hcount : r.entryCount = entries.length := hlists.count
    have hlength := hbetween.upTo.le_length
    have hbound : ∀ bound : Row, (Bound.included key).key? = some bound → bound = key := by
      intro bound heq
      cases heq
      rfl
    have hwidths : (Bound.included key).HasWidth r.header.schema.length :=
      fun bound heq => hbound bound heq ▸ hwidth
    have htypes : (Bound.included key).Typed types order :=
      fun bound heq => hbound bound heq ▸ hkey
    refine ⟨hits, hwalk, hrun _ (by omega), ?_⟩
    rw [Reader.scanEqual, scan_eq_filter hlists hkeys hascending htyped hwidths hwidths htypes htypes,
      hoffsets, Nat.max_zero, ← hbetween.filter_eq]
    congr 3
    funext e
    rw [Bound.admitsAbove, Bound.admitsBelow]
    cases order.compare e.1 key <;> rfl

end Finding

/-! ## Sealed indexes -/

namespace Writer

variable {w last : Writer} {entries writes : List (Row × ℕ)} {disk made : Disk} {path : String}

/-- Entries in order are all accepted, whether or not the order is verified. -/
theorem Holds.exists_writeAll (h : w.Holds entries) (hascending : Ascending w.order (entries ++ writes))
    (hwidth : ∀ e ∈ writes, e.1.length = w.schema.length) : ∃ last, w.writeAll writes = .ok last := by
  induction writes generalizing w entries with
  | nil => exact ⟨w, rfl⟩
  | cons e writes ih =>
    obtain ⟨he, hwrites⟩ := List.forall_mem_cons.mp hwidth
    have hlarger : w.larger? e.1 = none := by
      rw [larger?]
      split
      next hverify =>
        rw [h.lastKey hverify, Option.filter_eq_none_iff]
        intro key hkey
        obtain ⟨before, hbefore, rfl⟩ := Option.map_eq_some_iff.mp hkey
        have hle := (List.pairwise_append.mp hascending).2.2 before
          (List.mem_of_getLast? hbefore) e List.mem_cons_self
        rw [beq_iff_eq]
        exact Ordering.isLE_iff_ne_gt.mp hle
      next => rfl
    have hwrite : ∃ next, w.write e.1 e.2 = .ok next := by
      rw [Writer.write, if_neg (not_not_intro he), hlarger]
      exact ⟨_, rfl⟩
    obtain ⟨next, hnext⟩ := hwrite
    have hsame := sameFile_of_write hnext
    rw [List.append_cons] at hascending
    obtain ⟨last, hlast⟩ := ih (h.write hnext) (by rwa [hsame.order])
      (by rwa [hsame.schema])
    exact ⟨last, by rw [Writer.writeAll, hnext]; exact hlast⟩

/-- A writer that is closed within the limits of the format leaves an index that opens. -/
theorem Holds.exists_open (h : last.Holds entries) (hfits : last.Fits) (hschema : last.schema ≠ [])
    (hspecs : last.specs ≠ []) (horder : RowOrder.ofSpecs last.schema last.specs = .ok last.order)
    (hascending : Ascending last.order entries) (hstorable : ∀ e ∈ entries, Storable e)
    (hopened : Disk.Opened disk path last.file made) :
    ∃ summary sealed r, last.close made = .ok (summary, sealed) ∧
      Reader.open? sealed path = .ok r ∧ r.Lists entries ∧ r.header = last.header.named ∧
        r.order.keys = last.order.keys := by
  have hbody := length_body_lt (h.fits_header hfits)
  have himage := h.image_eq_ok hfits.toSized hbody horder
  have hclose := close_eq_ok himage made
  obtain ⟨r, hread, hlists, hheader, hkeys⟩ :=
    h.ofContent_content hfits hschema hspecs horder hascending hstorable path
  exact ⟨_, _, r, hclose, (open?_close hopened himage hclose).trans hread, hlists, hheader, hkeys⟩

end Writer

/-- In an index of entries in order each lookup is a linear search among them. -/
theorem find_of_close {disk made : Disk} {path : String} {file : OpenFile} {schema : Schema}
    {specs : List SortSpec} {order : RowOrder} {loadFactor : ℕ} {entries : List (Row × ℕ)}
    (verifyOrder : Bool) (hspecs : specs ≠ []) (horder : RowOrder.ofSpecs schema specs = .ok order)
    (hpositive : 1 ≤ loadFactor) (hfactor : loadFactor < 2 ^ 32)
    (hcolumns : schema.length ≤ 65535) (hcount : specs.length ≤ 65535)
    (hnames : ∀ c ∈ schema, (Bytes.ofText c.name).length ≤ 65536)
    (hascending : Ascending order entries) (hwidth : ∀ e ∈ entries, e.1.length = schema.length)
    (htyped : ∀ e ∈ entries, order.Typed (typeAt schema) e.1)
    (htexts : ∀ e ∈ entries, ∀ d ∈ e.1, d.Storable) (hoffsets : ∀ e ∈ entries, e.2 < 2 ^ 64)
    (hfile : disk.create path = .ok (file, made)) :
    ∃ w last, Writer.create disk path schema specs loadFactor verifyOrder = .ok (w, made) ∧
      w.writeAll entries = .ok last ∧
      (last.topSection.length + last.bottomSection.length + 2 ^ 33 ≤ 2 ^ 64 →
        ∃ summary sealed r, last.close made = .ok (summary, sealed) ∧
          Reader.open? sealed path = .ok r ∧
          ∀ key : Row, key.length = schema.length → order.Typed (typeAt schema) key →
            Finds r order entries key) := by
  have hcreate := Writer.create_eq_ok hspecs horder hpositive hfile verifyOrder
  have hfresh : (Writer.fresh path file schema specs order loadFactor verifyOrder).Holds [] :=
    Writer.holds_fresh hpositive verifyOrder
  obtain ⟨last, hwrite⟩ := @Writer.Holds.exists_writeAll _ _ entries hfresh hascending hwidth
  have hsame := Writer.sameFile_writeAll hwrite
  have hholds := hfresh.writeAll hwrite
  rw [List.nil_append] at hholds
  have hschema : last.schema = schema := hsame.schema
  have hspecsEq : last.specs = specs := hsame.specs
  have horderEq : last.order = order := hsame.order
  have hfactorEq : last.loadFactor = loadFactor := hsame.loadFactor
  have hfileEq : last.file = file := hsame.file
  refine ⟨_, last, hcreate, hwrite, ?_⟩
  intro hsections
  have hfits : last.Fits :=
    ⟨⟨by rwa [hfactorEq], hsections⟩, by rwa [hschema], by rwa [hspecsEq], by rwa [hschema]⟩
  have hstorable : ∀ e ∈ entries, Storable e := by
    intro e he
    refine ⟨⟨?_, htexts e he⟩, hoffsets e he⟩
    rw [hwidth e he]
    omega
  obtain ⟨summary, sealed, r, hclose, hopen, hlists, hheader, hkeys⟩ := hholds.exists_open hfits
    (by rw [hschema]; exact Writer.schema_ne_nil hspecs horder) (by rwa [hspecsEq])
    (by rw [hschema, hspecsEq, horderEq]; exact horder) (by rwa [horderEq]) hstorable
    (by rw [hfileEq]; exact Disk.opened_of_create hfile)
  refine ⟨summary, sealed, r, hclose, hopen, ?_⟩
  intro key hkeyWidth hkey
  have hreaderSchema : r.header.schema = schema := by
    rw [hheader]
    exact hschema
  rw [horderEq] at hkeys
  exact finds_of_lists hlists hkeys hascending htyped hkey (by rw [hreaderSchema]; exact hkeyWidth)

/-- Entries with a key that fills one block and a part of the next. -/
def Sample.sorted : List (Row × ℕ) :=
  [([.int4 1], 4), ([.int4 3], 8), ([.int4 3], 12), ([.int4 3], 16), ([.int4 7], 20)]

open Sample in
theorem find_of_close_sample :
    ∃ w last summary sealed r,
      Writer.create .empty "a.idx" schema specs 2 true = .ok (w, made) ∧
        w.writeAll sorted = .ok last ∧ last.close made = .ok (summary, sealed) ∧
        Reader.open? sealed "a.idx" = .ok r ∧ r.find [.int4 3] = .ok (some 8) ∧
        r.findFrom [.int4 3] 2 = .ok (some ⟨2, 12⟩) ∧ r.findFrom [.int4 3] 4 = .ok none ∧
        r.find [.int4 5] = .ok none := by
  have horder : RowOrder.ofSpecs schema specs = .ok order := by cbv
  have hspecs : specs ≠ [] := List.cons_ne_nil _ _
  have hpositive : 1 ≤ 2 := by decide
  have hascending : Ascending order sorted := by
    simp only [Ascending, sorted]
    decide +kernel
  have htyped : ∀ e ∈ sorted, order.Typed (typeAt schema) e.1 := by
    simp only [sorted, List.forall_mem_cons]
    refine ⟨?_, ?_, ?_, ?_, ?_, fun e he => absurd he List.not_mem_nil⟩ <;>
      exact typed_of_type (by decide)
  have htexts : ∀ e ∈ sorted, ∀ d ∈ e.1, d.Storable := by
    simp [sorted, Datum.Storable]
  obtain ⟨w, last, hcreate, hwrite, h⟩ := find_of_close true hspecs horder hpositive (by decide)
    (by decide) (by decide) (by decide) hascending (by decide) htyped htexts (by decide)
    create_empty
  have hwriter : w = writer := by
    have hfresh := Writer.create_eq_ok hspecs horder hpositive create_empty true
    rw [hcreate] at hfresh
    cases hfresh
    rfl
  subst hwriter
  have hbottom : last.bottomSection.length = 75 := by
    have hfresh : writer.Holds [] := Writer.holds_fresh hpositive true
    have hholds := hfresh.writeAll hwrite
    rw [List.nil_append] at hholds
    rw [hholds.bottomSection_eq]
    cbv
  have htop := Writer.length_topSection_writeAll (Nat.zero_le _) hwrite
  obtain ⟨summary, sealed, r, hclose, hopen, hfinds⟩ := h (by omega)
  have hthree := hfinds [.int4 3] rfl (typed_of_type (by decide))
  have hfive := hfinds [.int4 5] rfl (typed_of_type (by decide))
  refine ⟨writer, last, summary, sealed, r, hcreate, hwrite, hclose, hopen, ?_, ?_, ?_, ?_⟩
  · rw [hthree.find]
    cbv
  · rw [hthree.findFrom]
    cbv
  · rw [hthree.findFrom]
    cbv
  · rw [hfive.find]
    cbv

end BlockQuery.Index
