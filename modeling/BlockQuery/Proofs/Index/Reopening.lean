import BlockQuery.Proofs.Index.Building

/-!
# Files that open again

Within the limits of the format a closed index opens again just if the keys that
start its blocks are in order.  A writer that verifies the order sees to that, any
other one leaves it to its caller.  What opens is what was written.
-/

namespace BlockQuery.Index

/-- Whether a reader has the columns, the sort keys and the number of the entries written. -/
structure Reader.Reflects (r : Reader) (schema : Schema) (specs : List SortSpec)
    (order : RowOrder) (entries : List (Row × ℕ)) : Prop where
  entryCount_eq : r.entryCount = entries.length
  schema_eq : r.header.schema = schema
  specs_eq : r.header.specs = specs.map (SortSpec.named schema)
  keys_eq : r.order.keys = order.keys

namespace Filled

variable {disk made sealed : Disk} {path : String} {schema : Schema} {specs : List SortSpec}
  {loadFactor : ℕ} {entries : List (Row × ℕ)} {summary : Summary} {w : Writer}

theorem reflects_reader (h : Filled disk path schema specs loadFactor entries w made)
    (top : List TopEntry) : (w.reader path top).Reflects schema specs w.order entries := by
  refine ⟨h.holds.count, h.schema_eq, ?_, rfl⟩
  change w.specs.map (SortSpec.named w.schema) = specs.map (SortSpec.named schema)
  rw [h.schema_eq, h.specs_eq]

/-- Only the order of the sampled keys is left to decide whether a file opens. -/
theorem open?_eq_ok_iff (h : Filled disk path schema specs loadFactor entries w made)
    (hfactor : loadFactor < 2 ^ 32) (hcolumns : schema.length ≤ 65535)
    (hcount : specs.length ≤ 65535)
    (hnames : ∀ c ∈ schema, (Bytes.ofText c.name).length ≤ maxNameLength)
    (hkeys : ∀ t ∈ w.top.reverse, t.1.Storable) (hclose : w.close made = .ok (summary, sealed))
    {r : Reader} : Reader.open? sealed path = .ok r ↔
      r = w.reader path (w.top.reverse.map topEntry) ∧
        SampledInOrder w.order loadFactor entries := by
  obtain ⟨content, himage, -⟩ := Writer.get?_of_close h.opened hclose
  -- Closing has checked the sums of all lengths, so that they fit the fields of the header.
  obtain ⟨-, hwords, hlength⟩ := h.holds.image_spec h.order himage
  have hsum := Writer.Holds.length_content w
  have htop : w.header.topLength = w.topSection.length := rfl
  have hbottom : w.header.bottomLength = w.bottomSection.length := rfl
  have hsized : w.header.Sized :=
    h.holds.sized_header_of_lt (by rwa [h.loadFactor_eq]) hwords (by omega) (by omega)
  have hfits : w.header.Fits := by
    refine ⟨hsized, ?_, ?_, ?_⟩
    · rwa [Writer.header, h.schema_eq]
    · rwa [Writer.header, h.specs_eq]
    · rwa [Writer.header, h.schema_eq]
  have hread : ∀ found, readTop w.header.named ⟨w.order.keys, w.header.named.specs⟩
      w.header.bytes.length w.topSection = .ok found ↔
        found = w.top.reverse.map topEntry ∧ SampledInOrder w.order loadFactor entries := by
    intro found
    rw [← h.loadFactor_eq]
    exact h.holds.readTop_topSection_iff (by omega) hkeys _ _
  rw [h.open?_close hclose,
    h.holds.ofContent_eq hfits hwords hlength h.schema_ne h.specs_ne h.order, Except.map_eq_ok]
  constructor
  · rintro ⟨found, hfound, rfl⟩
    obtain ⟨rfl, hsampled⟩ := (hread found).mp hfound
    exact ⟨rfl, hsampled⟩
  · rintro ⟨rfl, hsampled⟩
    exact ⟨_, (hread _).mpr ⟨rfl, hsampled⟩, rfl⟩

/-- The keys that are sampled can be stored if those that start a block can. -/
theorem storable_top (h : Filled disk path schema specs loadFactor entries w made)
    (hcolumns : schema.length ≤ 65535)
    (htexts : ∀ j e, entries[j * loadFactor]? = some e → ∀ d ∈ e.1, d.Storable) :
    ∀ t ∈ w.top.reverse, t.1.Storable := by
  intro t ht
  obtain ⟨j, e, he, rfl⟩ := h.holds.exists_entry_of_mem_top ht
  have hwidth : e.1.length ≤ 65535 := by
    rw [h.holds.width e (List.mem_of_getElem? he), h.schema_eq]
    exact hcolumns
  rw [h.loadFactor_eq] at he
  exact ⟨Nat.lt_succ_of_le hwidth, htexts j e he⟩

end Filled

namespace Writer

variable {disk made sealed : Disk} {path : String} {schema : Schema} {specs : List SortSpec}
  {loadFactor : ℕ} {verifyOrder : Bool} {writes : List (Row × ℕ)} {summary : Summary}
  {w last : Writer}

/-- No entry out of order is written where the order is verified. -/
theorem ascending_of_writeAll {types : ℕ → DataType}
    (hcreate : create disk path schema specs loadFactor true = .ok (w, made))
    (hwrite : w.writeAll writes = .ok last) (htyped : ∀ e ∈ writes, w.order.Typed types e.1) :
    Ascending w.order writes := by
  obtain ⟨hfactor, -, -, file, order, -, -, rfl⟩ := eq_fresh_of_create hcreate
  have hfresh : (fresh path file schema specs order loadFactor true).Holds [] :=
    holds_fresh hfactor true
  have hascending := hfresh.ascending_writeEach rfl List.Pairwise.nil
    (fun e he => absurd he List.not_mem_nil) htyped
  rwa [writeEach_of_writeAll hwrite] at hascending

/-- After any run of writes none of which was refused a closed index opens just if the keys that
start its blocks are in order, which is always so if the writer verified it for keys of the types of
their columns.  What opens reflects what was written. -/
theorem open?_iff_sampledInOrder (hfactor : loadFactor < 2 ^ 32)
    (hcolumns : schema.length ≤ 65535) (hcount : specs.length ≤ 65535)
    (hnames : ∀ c ∈ schema, (Bytes.ofText c.name).length ≤ 65536)
    (htexts : ∀ j e, writes[j * loadFactor]? = some e → ∀ d ∈ e.1, d.Storable)
    (hcreate : create disk path schema specs loadFactor verifyOrder = .ok (w, made))
    (hwrite : w.writeAll writes = .ok last) (hclose : last.close made = .ok (summary, sealed)) :
    ((∃ r, Reader.open? sealed path = .ok r) ↔ SampledInOrder w.order loadFactor writes) ∧
    (∀ r, Reader.open? sealed path = .ok r → r.Reflects schema specs w.order writes) ∧
    (verifyOrder = true → (∀ e ∈ writes, w.order.Typed (typeAt schema) e.1) →
      ∃ r, Reader.open? sealed path = .ok r) := by
  have hfilled := filled_of_writeAll hcreate hwrite
  have hopen {r : Reader} := hfilled.open?_eq_ok_iff hfactor hcolumns hcount hnames
    (hfilled.storable_top hcolumns htexts) hclose (r := r)
  have horder : last.order = w.order := (sameFile_writeAll hwrite).order
  rw [horder] at hopen
  have hopens : (∃ r, Reader.open? sealed path = .ok r) ↔
      SampledInOrder w.order loadFactor writes :=
    ⟨fun ⟨_, hr⟩ => (hopen.mp hr).2, fun hsampled => ⟨_, hopen.mpr ⟨rfl, hsampled⟩⟩⟩
  refine ⟨hopens, ?_, ?_⟩
  · intro r hr
    obtain ⟨rfl, -⟩ := hopen.mp hr
    rw [← horder]
    exact hfilled.reflects_reader _
  · rintro rfl htyped
    have hpositive := (eq_fresh_of_create hcreate).1
    exact hopens.mpr ((ascending_of_writeAll hcreate hwrite htyped).sampledInOrder hpositive)

end Writer

namespace Sample

/-- Keys of which every second one is in order. -/
def alternating : List (Row × ℕ) :=
  [([.int4 1], 4), ([.int4 3], 8), ([.int4 2], 12), ([.int4 5], 16)]

/-- Keys out of order. -/
def descending : List (Row × ℕ) := [([.int4 3], 4), ([.int4 1], 8)]

theorem sampledInOrder_alternating : SampledInOrder order 2 alternating := by
  intro j a b ha hb
  have hlt : (j + 1) * 2 < 4 := (List.getElem?_eq_some_iff.mp hb).1
  obtain rfl : j = 0 := by omega
  cases ha
  cases hb
  rfl

theorem not_sampledInOrder_descending : ¬SampledInOrder order 1 descending := by
  intro h
  have hle : (order.compare [.int4 3] [.int4 1]).isLE := h 0 _ _ rfl rfl
  revert hle
  decide

theorem exists_close (loadFactor : ℕ) (hpositive : 1 ≤ loadFactor) (hfactor : loadFactor < 2 ^ 32)
    {writes : List (Row × ℕ)} (hwidth : ∀ e ∈ writes, e.1.length = 1)
    (hsize : (writes.flatMap encodeEntry).length ≤ 2 ^ 62) : ∃ w last summary sealed,
      Writer.create .empty "a.idx" schema specs loadFactor false = .ok (w, made) ∧
        w.order = order ∧ w.writeAll writes = .ok last ∧
        last.close made = .ok (summary, sealed) := by
  have horder : RowOrder.ofSpecs schema specs = .ok order := by cbv
  have hcreate := Writer.create_eq_ok (List.cons_ne_nil _ _) horder hpositive create_empty false
  obtain ⟨last, hwrite⟩ := Writer.exists_writeAll
    (w := Writer.fresh "a.idx" file schema specs order loadFactor false) rfl hwidth
  obtain ⟨summary, sealed, hclose⟩ :=
    (filled_of_writeAll hcreate hwrite).exists_close hfactor hsize (by decide)
  exact ⟨_, last, summary, sealed, hcreate, rfl, hwrite, hclose⟩

end Sample

open Sample in
/-- Keys out of order do no harm where they are not sampled. -/
theorem Writer.open?_of_alternating : ∃ w last summary sealed r,
    create .empty "a.idx" Sample.schema Sample.specs 2 false = .ok (w, made) ∧
      w.writeAll alternating = .ok last ∧ last.close made = .ok (summary, sealed) ∧
      Reader.open? sealed "a.idx" = .ok r ∧
      r.Reflects Sample.schema Sample.specs w.order alternating := by
  have htexts : ∀ j e, alternating[j * 2]? = some e → ∀ d ∈ e.1, d.Storable := by
    intro j e he
    have hall : ∀ e ∈ alternating, ∀ d ∈ e.1, d.Storable := by
      simp [alternating, Datum.Storable]
    exact hall e (List.mem_of_getElem? he)
  obtain ⟨w, last, summary, sealed, hcreate, horder, hwrite, hclose⟩ :=
    exists_close 2 (by decide) (by decide) (show ∀ e ∈ alternating, e.1.length = 1 by decide)
      (by decide)
  obtain ⟨hopens, hreflects, -⟩ := open?_iff_sampledInOrder (by decide) (by decide) (by decide)
    (by decide) htexts hcreate hwrite hclose
  obtain ⟨r, hr⟩ := hopens.mpr (horder ▸ sampledInOrder_alternating)
  exact ⟨w, last, summary, sealed, r, hcreate, hwrite, hclose, hr, hreflects r hr⟩

open Sample in
/-- Where the order is not verified, keys out of order are written to a file that does not open. -/
theorem Writer.unopened_of_descending : ∃ w last summary sealed,
    create .empty "a.idx" Sample.schema Sample.specs 1 false = .ok (w, made) ∧
      w.writeAll descending = .ok last ∧ last.close made = .ok (summary, sealed) ∧
      ∀ r, Reader.open? sealed "a.idx" ≠ .ok r := by
  have htexts : ∀ j e, descending[j * 1]? = some e → ∀ d ∈ e.1, d.Storable := by
    intro j e he
    have hall : ∀ e ∈ descending, ∀ d ∈ e.1, d.Storable := by
      simp [descending, Datum.Storable]
    exact hall e (List.mem_of_getElem? he)
  obtain ⟨w, last, summary, sealed, hcreate, horder, hwrite, hclose⟩ :=
    exists_close 1 (by decide) (by decide) (show ∀ e ∈ descending, e.1.length = 1 by decide)
      (by decide)
  refine ⟨w, last, summary, sealed, hcreate, hwrite, hclose, fun r hr => ?_⟩
  have hfilled := filled_of_writeAll hcreate hwrite
  have hsampled := ((hfilled.open?_eq_ok_iff (by decide) (by decide) (by decide) (by decide)
    (hfilled.storable_top (by decide) htexts) hclose).mp hr).2
  rw [(sameFile_writeAll hwrite).order, horder] at hsampled
  exact not_sampledInOrder_descending hsampled

end BlockQuery.Index
