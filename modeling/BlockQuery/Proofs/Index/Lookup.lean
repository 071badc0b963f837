import BlockQuery.Proofs.Disk.Directories
import BlockQuery.Proofs.Index.Bounds
import BlockQuery.Proofs.Index.Opening

/-!
# Range scans of closed indexes

A range scan finds the accepted entries within its bounds, in the order in which
they were written.
-/

namespace BlockQuery.Index

/-! ## Closing and opening -/

namespace Writer

variable {disk made : Disk} {path : String} {file : OpenFile} {schema : Schema}
  {specs : List SortSpec} {order : RowOrder} {loadFactor : ℕ}

theorem schema_ne_nil (hspecs : specs ≠ []) (horder : RowOrder.ofSpecs schema specs = .ok order) :
    schema ≠ [] := by
  obtain ⟨spec, rest, rfl⟩ := List.exists_cons_of_ne_nil hspecs
  obtain ⟨i, _, hi⟩ := RowOrder.exists_find_of_ofSpecs horder spec List.mem_cons_self
  exact List.ne_nil_of_length_pos (Nat.zero_lt_of_lt hi)

/-- A writer to a file that was opened, before anything was written. -/
def fresh (path : String) (file : OpenFile) (schema : Schema) (specs : List SortSpec)
    (order : RowOrder) (loadFactor : ℕ) (verifyOrder : Bool) : Writer :=
  ⟨path, file, schema, specs, order, loadFactor, verifyOrder, [], [], 0, 0, none⟩

theorem create_eq_ok (hspecs : specs ≠ []) (horder : RowOrder.ofSpecs schema specs = .ok order)
    (hpositive : 1 ≤ loadFactor) (hfile : disk.create path = .ok (file, made)) (verifyOrder : Bool) :
    create disk path schema specs loadFactor verifyOrder =
      .ok (fresh path file schema specs order loadFactor verifyOrder, made) := by
  have hkeys : (specs.isEmpty || schema.isEmpty) = false := by
    rw [Bool.or_eq_false_iff, List.isEmpty_eq_false_iff, List.isEmpty_eq_false_iff]
    exact ⟨hspecs, schema_ne_nil hspecs horder⟩
  rw [create, if_neg (Nat.ne_of_gt hpositive), hkeys, if_neg Bool.false_ne_true, horder, hfile]
  rfl

theorem holds_fresh (hpositive : 1 ≤ loadFactor) (verifyOrder : Bool) :
    (fresh path file schema specs order loadFactor verifyOrder).Holds [] where
  positive := hpositive
  bottom := rfl
  bottomLength := rfl
  count := rfl
  top j := by simp [fresh]
  width e he := absurd he List.not_mem_nil
  lastKey _ := rfl

/-- Closing writes the file and leaves all others. -/
theorem get?_of_close {w : Writer} {sealed : Disk} {summary : Summary}
    (hopened : Disk.Opened disk path w.file made) (h : w.close made = .ok (summary, sealed)) :
    ∃ content, w.image = .ok (content, summary) ∧
      sealed.get? w.file.place = some (.file w.file.number content) ∧
      ∀ q, q ≠ w.file.place → sealed.get? q = disk.get? q := by
  rw [close] at h
  cases himage : w.image with
  | error e =>
    rw [himage] at h
    cases h
  | ok image =>
    rw [himage] at h
    cases h
    have hwrite := Disk.writeAt_eq_put hopened.get?_self 0 image.1
    have hcontent := Disk.overwritten_append [] image.1
    rw [List.length_nil, List.nil_append] at hcontent
    rw [hcontent] at hwrite
    refine ⟨image.1, rfl, ?_, ?_⟩
    · rw [hwrite]
      exact Disk.get?_put_self made _ (Disk.one_lt_of_get?_ne hopened.notDirectory)
    · intro q hq
      rw [hwrite, Disk.get?_put_of_ne made _ hq]
      exact hopened.get?_of_ne q hq

end Writer

/-- At its path a closed file has what the writer put there. -/
theorem Writer.openEntry_close {disk made sealed : Disk} {path : String} {w : Writer}
    {content : Bytes} {summary summary' : Summary}
    (hopened : Disk.Opened disk path w.file made) (himage : w.image = .ok (content, summary))
    (hclose : w.close made = .ok (summary', sealed)) :
    sealed.openEntry path = .ok (.file w.file.number content) := by
  obtain ⟨content', himage', hself, hothers⟩ := get?_of_close hopened hclose
  rw [himage] at himage'
  cases himage'
  have hsame := Disk.sameDirectories_of_ne hopened.notDirectory (hself ▸ nofun) hothers
  exact Disk.openEntry_eq_ok.mpr ⟨_, (Disk.resolve_congr hsame).mp hopened.resolve, hself⟩

theorem Writer.open?_close {disk made sealed : Disk} {path : String} {w : Writer}
    {content : Bytes} {summary summary' : Summary}
    (hopened : Disk.Opened disk path w.file made) (himage : w.image = .ok (content, summary))
    (hclose : w.close made = .ok (summary', sealed)) :
    Reader.open? sealed path = Reader.ofContent path content := by
  rw [Reader.open?, openEntry_close hopened himage hclose]

/-- Closing succeeds if there is something to write. -/
theorem Writer.close_eq_ok {w : Writer} {content : Bytes} {summary : Summary}
    (himage : w.image = .ok (content, summary)) (disk : Disk) :
    w.close disk = .ok (summary, disk.writeAt w.file 0 content) := by
  rw [close, himage]
  rfl

/-- The type of a column. -/
def typeAt (schema : Schema) (i : ℕ) : DataType := (schema[i]?.map Column.type).getD .bool

/-- After any run of writes, a closed index opens, and each of its range scans finds just the
accepted entries within the bounds, in the order in which they were written. -/
theorem scan_of_close {disk made : Disk} {path : String} {file : OpenFile} {schema : Schema}
    {specs : List SortSpec} {order : RowOrder} {loadFactor : ℕ} {writes : List (Row × ℕ)}
    (hspecs : specs ≠ []) (horder : RowOrder.ofSpecs schema specs = .ok order)
    (hpositive : 1 ≤ loadFactor) (hfactor : loadFactor < 2 ^ 32)
    (hcolumns : schema.length ≤ 65535) (hcount : specs.length ≤ 65535)
    (hnames : ∀ c ∈ schema, (Bytes.ofText c.name).length ≤ 65536)
    (htyped : ∀ e ∈ writes, order.Typed (typeAt schema) e.1)
    (htexts : ∀ e ∈ writes, ∀ d ∈ e.1, d.Storable) (hoffsets : ∀ e ∈ writes, e.2 < 2 ^ 64)
    (hfile : disk.create path = .ok (file, made)) :
    ∃ w, Writer.create disk path schema specs loadFactor true = .ok (w, made) ∧
      ∀ accepted last, w.writeEach writes = (accepted, last) →
        last.topSection.length + last.bottomSection.length + 2 ^ 33 ≤ 2 ^ 64 →
        ∃ summary sealed r, last.close made = .ok (summary, sealed) ∧
          Reader.open? sealed path = .ok r ∧ r.entryCount = accepted.length ∧
          r.header.topCount = (accepted.length + loadFactor - 1) / loadFactor ∧
          ∀ lower upper : Bound,
            (lower.HasWidth schema.length ∧ upper.HasWidth schema.length →
              lower.Typed (typeAt schema) order → upper.Typed (typeAt schema) order →
              (r.scan lower upper).bind Scan.offsets = .ok ((accepted.filter fun e =>
                lower.admitsAbove order e.1 && upper.admitsBelow order e.1).map Prod.snd)) ∧
            (¬(lower.HasWidth schema.length ∧ upper.HasWidth schema.length) →
              ∃ key, (lower.key? = some key ∨ upper.key? = some key) ∧
                key.length ≠ schema.length ∧
                r.scan lower upper = .error (.invalidKey (.lookupWidth key.length schema))) := by
  refine ⟨_, Writer.create_eq_ok hspecs horder hpositive hfile true, ?_⟩
  intro accepted last hrun hsections
  have hfresh : (Writer.fresh path file schema specs order loadFactor true).Holds [] :=
    Writer.holds_fresh hpositive true
  have hholds := hfresh.writeEach writes
  have hsame := Writer.sameFile_writeEach
    (Writer.fresh path file schema specs order loadFactor true) writes
  have hsublist := Writer.sublist_writeEach
    (Writer.fresh path file schema specs order loadFactor true) writes
  have hascending := hfresh.ascending_writeEach rfl List.Pairwise.nil
    (fun e he => absurd he List.not_mem_nil) htyped
  rw [hrun, List.nil_append] at hholds hascending
  rw [hrun] at hsame hsublist
  have hschema : last.schema = schema := hsame.schema
  have hspecsEq : last.specs = specs := hsame.specs
  have horderEq : last.order = order := hsame.order
  have hfactorEq : last.loadFactor = loadFactor := hsame.loadFactor
  have hfits : last.Fits :=
    ⟨⟨by rwa [hfactorEq], hsections⟩, by rwa [hschema], by rwa [hspecsEq], by rwa [hschema]⟩
  have hstorable : ∀ e ∈ accepted, Storable e := by
    intro e he
    have hwidth := hholds.width e he
    have hwritten := hsublist.subset he
    refine ⟨⟨?_, htexts e hwritten⟩, hoffsets e hwritten⟩
    rw [hwidth, hschema]
    omega
  have horderLast : RowOrder.ofSpecs last.schema last.specs = .ok last.order := by
    rw [hschema, hspecsEq, horderEq]
    exact horder
  have hopened : Disk.Opened disk path last.file made := by
    rw [hsame.file]
    exact Disk.opened_of_create hfile
  have hbody := length_body_lt (hholds.fits_header hfits)
  have himage := hholds.image_eq_ok hfits.toSized hbody horderLast
  have hclose := Writer.close_eq_ok himage made
  have hopen := Writer.open?_close hopened himage hclose
  obtain ⟨r, hread, hlists, hheader, hkeys⟩ := hholds.ofContent_content hfits
    (by rw [hschema]; exact Writer.schema_ne_nil hspecs horder) (by rwa [hspecsEq]) horderLast
    (by rw [horderEq]; exact hascending) hstorable path
  have hreaderSchema : r.header.schema = schema := by
    rw [hheader]
    exact hschema
  rw [horderEq] at hkeys
  refine ⟨_, _, r, hclose, hopen.trans hread, hlists.count, ?_, ?_⟩
  · rw [hheader, ← hholds.count, ← hfactorEq]
    rfl
  · intro lower upper
    rw [← hreaderSchema]
    refine ⟨?_, scan_eq_error⟩
    rintro ⟨hlowerWidth, hupperWidth⟩ hlower hupper
    exact scan_eq_filter hlists hkeys hascending (fun e he => htyped e (hsublist.subset he))
      hlowerWidth hupperWidth (by rwa [hreaderSchema] at hlower) (by rwa [hreaderSchema] at hupper)

namespace Sample

def schema : Schema := [⟨"a", .int4⟩]

def specs : List SortSpec := [⟨"a", true, true⟩]

def order : RowOrder := ⟨[⟨0, true, true⟩], specs⟩

/-- The third entry comes too late. -/
def writes : List (Row × ℕ) :=
  [([.null], 4), ([.int4 3], 8), ([.int4 1], 12), ([.int4 3], 16), ([.int4 7], 20)]

def file : OpenFile := ⟨[".", "a.idx"], 0⟩

def made : Disk := ⟨[([".", "a.idx"], .file 0 [])], 1⟩

theorem isAlone_index : Path.IsAlone "a.idx" :=
  ⟨⟨by decide, by decide, by decide, by decide⟩, by decide, by decide, by decide⟩

theorem create_empty : Disk.empty.create "a.idx" = .ok (file, made) := by
  rw [Disk.create_alone isAlone_index]
  rfl

def writer : Writer := Writer.fresh "a.idx" file schema specs order 2 true

theorem typed_of_type {d : Datum} (h : d.type? = none ∨ d.type? = some .int4) :
    order.Typed (typeAt schema) [d] := by
  intro key hkey
  rw [List.mem_singleton.mp hkey]
  intro e he
  cases d <;> cases he
  all_goals
    rcases h with h | h
    · cases h
    · exact Datum.comparesAs_of_type h

end Sample

open Sample in
/-- After a refused write the entries above null are those of the other writes. -/
theorem scan_of_close_refusing :
    ∃ w summary sealed r,
      Writer.create .empty "a.idx" schema specs 2 true = .ok (w, made) ∧
        (w.writeEach writes).2.close made = .ok (summary, sealed) ∧
        Reader.open? sealed "a.idx" = .ok r ∧ r.entryCount = 4 ∧ r.header.topCount = 2 ∧
        (r.scan (.excluded [.null]) .unbounded).bind Scan.offsets = .ok [8, 16, 20] := by
  have horder : RowOrder.ofSpecs schema specs = .ok order := by cbv
  have htyped : ∀ e ∈ writes, order.Typed (typeAt schema) e.1 := by
    simp only [writes, List.forall_mem_cons]
    refine ⟨?_, ?_, ?_, ?_, ?_, fun e he => absurd he List.not_mem_nil⟩ <;>
      exact typed_of_type (by decide)
  have htexts : ∀ e ∈ writes, ∀ d ∈ e.1, d.Storable := by
    simp [writes, Datum.Storable]
  have hoffsets : ∀ e ∈ writes, e.2 < 2 ^ 64 := by decide
  have hnames : ∀ c ∈ schema, (Bytes.ofText c.name).length ≤ 65536 := by
    decide
  have hspecs : specs ≠ [] := List.cons_ne_nil _ _
  have hpositive : 1 ≤ 2 := by decide
  obtain ⟨w, hcreate, h⟩ := scan_of_close hspecs horder hpositive (by decide) (by decide)
    (by decide) hnames htyped htexts hoffsets create_empty
  have hwriter : w = writer := by
    have hfresh := Writer.create_eq_ok hspecs horder hpositive create_empty true
    rw [hcreate] at hfresh
    cases hfresh
    rfl
  subst hwriter
  have haccepted : (writer.writeEach writes).1 =
      [([.null], 4), ([.int4 3], 8), ([.int4 3], 16), ([.int4 7], 20)] := by cbv
  have htop : (writer.writeEach writes).2.topSection.length = 26 := by cbv
  have hbottom : (writer.writeEach writes).2.bottomSection.length = 56 := by cbv
  obtain ⟨summary, sealed, r, hclose, hopen, hcount, htopCount, hscan⟩ :=
    h (writer.writeEach writes).1 (writer.writeEach writes).2 rfl
      (by rw [htop, hbottom]; norm_num)
  rw [haccepted] at hcount htopCount hscan
  refine ⟨writer, summary, sealed, r, hcreate, hclose, hopen, hcount, htopCount, ?_⟩
  have hlower : (Bound.excluded [.null]).Typed (typeAt schema) order := by
    intro key hkey
    cases hkey
    exact typed_of_type (Or.inl rfl)
  have hlowerWidth : (Bound.excluded [.null]).HasWidth schema.length := by
    intro key hkey
    cases hkey
    rfl
  have hnone : ∀ key, Bound.unbounded.key? ≠ some key := by
    intro key hkey
    cases hkey
  have hupper : Bound.unbounded.Typed (typeAt schema) order :=
    fun key hkey => absurd hkey (hnone key)
  have hupperWidth : Bound.unbounded.HasWidth schema.length :=
    fun key hkey => absurd hkey (hnone key)
  rw [(hscan _ _).1 ⟨hlowerWidth, hupperWidth⟩ hlower hupper]
  cbv

end BlockQuery.Index
