import BlockQuery.Index.Header
import BlockQuery.Proofs.Row.Codec
import BlockQuery.Proofs.Row.Columns

/-!
# Reading back index headers

A header is read back from in front of any bytes, with the names of the columns
that the sort specs mean in the place of the names that they gave.
-/

namespace BlockQuery.Index.Header

open BlockQuery.ByteCursor (ahead)
open BlockQuery.Read (bind_of_ok pure_apply nat_ahead_of_lt nat_ahead_byte bytes_ahead)

/-! ## Parts of a header -/

theorem sized_of_ok {α : Type} {read : BlockQuery.Read α} {c d : ByteCursor} {a : α}
    (h : read c = (.ok a, d)) : sized read c = (.ok a, d) := by
  rw [sized, h]

theorem nat_ahead {width n : ℕ} (h : n < 256 ^ width) (p : ℕ) (ys : Bytes) :
    nat width (ahead p (Bytes.ofNat width n ++ ys)) = (.ok n, ahead (p + width) ys) :=
  sized_of_ok (nat_ahead_of_lt h p ys)

theorem byte_ahead (b : UInt8) (p : ℕ) (ys : Bytes) :
    nat 1 (ahead p (b :: ys)) = (.ok b.toNat, ahead (p + 1) ys) :=
  sized_of_ok (nat_ahead_byte b p ys)

theorem position_ahead (p : ℕ) (ys : Bytes) : position (ahead p ys) = (.ok p, ahead p ys) := rfl

theorem name_ahead {s : String} (h : (Bytes.ofText s).length ≤ maxNameLength) (p : ℕ)
    (ys : Bytes) : name (ahead p (Bytes.ofSizedText s ++ ys)) =
      (.ok s, ahead (p + (Bytes.ofSizedText s).length) ys) := by
  have hlength : (Bytes.ofText s).length < 256 ^ 4 := h.trans_lt (by decide)
  have hbytes := bytes_ahead (n := (Bytes.ofText s).length) rfl (p + 4) ys
  rw [name, Bytes.ofSizedText, List.append_assoc, bind_of_ok (position_ahead p _),
    bind_of_ok (nat_ahead hlength p _), if_neg (Nat.not_lt.mpr h), bind_of_ok (sized_of_ok hbytes),
    Bytes.toText?_ofText, List.length_append, Bytes.length_ofNat, ← Nat.add_assoc]
  rfl

theorem ofTag?_tag (t : DataType) : DataType.ofTag? t.tag = some t := by
  cases t <;> rfl

theorem column_ahead {c : Column} (h : (Bytes.ofText c.name).length ≤ maxNameLength) (p : ℕ)
    (ys : Bytes) : column (ahead p (encodeColumn c ++ ys)) =
      (.ok c, ahead (p + (encodeColumn c).length) ys) := by
  rw [column, encodeColumn, List.append_assoc, bind_of_ok (name_ahead h p _), List.singleton_append,
    bind_of_ok (byte_ahead c.type.tag _ ys), UInt8.ofNat_toNat, ofTag?_tag, List.length_append,
    ← Nat.add_assoc]
  rfl

theorem toNat_bit (b : Bool) : ((if b then (1 : UInt8) else 0).toNat != 0) = b := by
  cases b <;> rfl

/-- The bytes of a sort spec, if its column is there. -/
def specBytes (schema : Schema) (s : SortSpec) : Bytes := (encodeSpec schema s).toOption.getD []

theorem encodeSpec_eq_ok {schema : Schema} {s : SortSpec} {i : ℕ}
    (h : schema.find s.column = .ok i) : encodeSpec schema s = .ok (specBytes schema s) := by
  rw [specBytes, encodeSpec, h]
  rfl

theorem spec_ahead {schema : Schema} {s : SortSpec} {i : ℕ} (hlimit : schema.length ≤ 65535)
    (h : schema.find s.column = .ok i) (p : ℕ) (ys : Bytes) :
    spec schema (ahead p (specBytes schema s ++ ys)) =
      (.ok (s.named schema), ahead (p + (specBytes schema s).length) ys) := by
  obtain ⟨c, hc, _⟩ := Schema.exists_column_of_find h
  have hi : i < 256 ^ 2 := (List.getElem?_eq_some_iff.mp hc).1.trans_le (hlimit.trans (by decide))
  have hbytes : specBytes schema s = Bytes.ofNat 2 i ++
      [if s.ascending then 1 else 0, if s.nullsFirst then 1 else 0] := by
    rw [specBytes, encodeSpec, h]
    rfl
  have hnamed : s.named schema = ⟨c.name, s.ascending, s.nullsFirst⟩ := by
    rw [SortSpec.named, h]
    dsimp only
    rw [hc, Option.map_some, Option.getD_some]
  rw [hbytes, List.append_assoc, spec, bind_of_ok (nat_ahead hi p _), List.cons_append,
    bind_of_ok (byte_ahead _ _ _), List.singleton_append, bind_of_ok (byte_ahead _ _ ys), hc,
    hnamed]
  dsimp only
  rw [toNat_bit, toNat_bit, List.length_append, Bytes.length_ofNat]
  rfl

/-- Induct on the items that are left; those before them wait in reverse. -/
theorem many_ahead {α β : Type} {item : Header.Read β} {bytes : α → Bytes} {value : α → β}
    {xs : List α} (h : ∀ x ∈ xs, ∀ p ys, item (ahead p (bytes x ++ ys)) =
      (.ok (value x), ahead (p + (bytes x).length) ys)) (done : List β) (p : ℕ) (ys : Bytes) :
    many item xs.length done (ahead p (xs.flatMap bytes ++ ys)) =
      (.ok (done.reverse ++ xs.map value), ahead (p + (xs.flatMap bytes).length) ys) := by
  induction xs generalizing done p with
  | nil =>
    rw [List.map_nil, List.append_nil]
    rfl
  | cons x xs ih =>
    obtain ⟨hx, hxs⟩ := List.forall_mem_cons.mp h
    rw [List.length_cons, many, List.flatMap_cons, List.append_assoc, bind_of_ok (hx p _), ih hxs,
      List.reverse_cons, List.append_assoc, List.length_append, List.map_cons, Nat.add_assoc]
    rfl

/-! ## Whole headers -/

/-- Whether the numbers of a header fit their fields. -/
structure Sized (h : Header) : Prop where
  loadFactor : h.loadFactor < 2 ^ 32
  entryCount : h.entryCount < 2 ^ 64
  topCount : h.topCount < 2 ^ 64
  topLength : h.topLength < 2 ^ 64
  bottomLength : h.bottomLength < 2 ^ 64

/-- The limits within which a header can be read back. -/
structure Fits (h : Header) : Prop extends Sized h where
  columns : h.schema.length ≤ 65535
  specs : h.specs.length ≤ 65535
  names : ∀ c ∈ h.schema, (Bytes.ofText c.name).length ≤ maxNameLength

/-- All of a header before its checksum. -/
def body (h : Header) : Bytes :=
  h.fixedFields ++ Bytes.ofNat 2 h.schema.length ++ h.schema.flatMap encodeColumn ++
    Bytes.ofNat 2 h.specs.length ++ h.specs.flatMap (specBytes h.schema)

def bytes (h : Header) : Bytes := h.body ++ Bytes.ofUInt32 (checksum h.body)

theorem length_bytes (h : Header) : h.bytes.length = h.body.length + 4 := by
  rw [bytes, List.length_append, Bytes.ofUInt32, Bytes.length_ofNat]

/-- A header with its sort specs by the whole names of their columns. -/
def named (h : Header) : Header := { h with specs := h.specs.map (SortSpec.named h.schema) }

variable {h : Header} {order : RowOrder}

theorem encode_eq_ok (horder : RowOrder.ofSpecs h.schema h.specs = .ok order) :
    h.encode = .ok h.bytes := by
  have hspecs : h.specs.mapM (encodeSpec h.schema) = .ok (h.specs.map (specBytes h.schema)) := by
    apply Except.mapM_of_forall
    intro s hs
    obtain ⟨i, hi, _⟩ := RowOrder.exists_find_of_ofSpecs horder s hs
    exact encodeSpec_eq_ok hi
  rw [encode, hspecs, bytes, body]
  rfl

theorem columns_ahead (hfits : h.Fits) (p : ℕ) (ys : Bytes) :
    many column h.schema.length [] (ahead p (h.schema.flatMap encodeColumn ++ ys)) =
      (.ok h.schema, ahead (p + (h.schema.flatMap encodeColumn).length) ys) := by
  have hmany : many column h.schema.length [] (ahead p (h.schema.flatMap encodeColumn ++ ys)) =
      (.ok ([].reverse ++ h.schema.map id), ahead (p + (h.schema.flatMap encodeColumn).length) ys) :=
    many_ahead (fun c hc => column_ahead (hfits.names c hc)) [] p ys
  rwa [List.map_id] at hmany

theorem specs_ahead (hfits : h.Fits) (horder : RowOrder.ofSpecs h.schema h.specs = .ok order)
    (p : ℕ) (ys : Bytes) :
    many (spec h.schema) h.specs.length [] (ahead p (h.specs.flatMap (specBytes h.schema) ++ ys)) =
      (.ok h.named.specs, ahead (p + (h.specs.flatMap (specBytes h.schema)).length) ys) := by
  apply many_ahead
  intro s hs
  obtain ⟨i, hi, _⟩ := RowOrder.exists_find_of_ofSpecs horder s hs
  exact spec_ahead hfits.columns hi

theorem fields_ahead (hfits : h.Fits) (horder : RowOrder.ofSpecs h.schema h.specs = .ok order)
    (ys : Bytes) : fields (ahead 0 (h.body ++ ys)) = (.ok h.named, ahead h.body.length ys) := by
  have hcolumns : h.schema.length < 256 ^ 2 := hfits.columns.trans_lt (by decide)
  have hcount : h.specs.length < 256 ^ 2 := hfits.specs.trans_lt (by decide)
  have hmagic := fun ys => sized_of_ok (bytes_ahead (show magic.length = 4 from rfl) 0 ys)
  have hversion : formatVersion < 256 ^ 2 := by decide
  have hlength : h.body.length = 0 + 4 + 2 + 4 + 8 + 8 + 8 + 8 + 2 +
      (h.schema.flatMap encodeColumn).length + 2 +
        (h.specs.flatMap (specBytes h.schema)).length := by
    simp only [body, fixedFields, List.length_append, Bytes.length_ofNat]
    rfl
  rw [hlength, fields, body, fixedFields]
  simp only [List.append_assoc]
  rw [bind_of_ok (hmagic _), if_neg (not_not_intro rfl), bind_of_ok (nat_ahead hversion _ _),
    if_neg (not_not_intro rfl), bind_of_ok (nat_ahead hfits.loadFactor _ _),
    bind_of_ok (nat_ahead hfits.entryCount _ _), bind_of_ok (nat_ahead hfits.topCount _ _),
    bind_of_ok (nat_ahead hfits.topLength _ _), bind_of_ok (nat_ahead hfits.bottomLength _ _),
    bind_of_ok (nat_ahead hcolumns _ _), bind_of_ok (columns_ahead hfits _ _),
    bind_of_ok (nat_ahead hcount _ _), bind_of_ok (specs_ahead hfits horder _ _)]
  rfl

theorem check_eq_ok (hfactor : h.loadFactor ≠ 0)
    (htop : topCountFor? h.entryCount h.loadFactor = some h.topCount) (hschema : h.schema ≠ [])
    (hspecs : h.specs ≠ []) : h.check = .ok () := by
  have hkeys : (h.schema.isEmpty || h.specs.isEmpty) = false := by
    rw [Bool.or_eq_false_iff, List.isEmpty_eq_false_iff, List.isEmpty_eq_false_iff]
    exact ⟨hschema, hspecs⟩
  rw [check, if_neg hfactor, htop]
  dsimp only
  rw [if_neg (not_not_intro rfl), hkeys]
  rfl

theorem check_named : h.named.check = h.check := by
  rw [check, check, named, List.isEmpty_map]

/-- A header within the limits is read back from in front of any bytes. -/
theorem decode_bytes_append (hfits : h.Fits)
    (horder : RowOrder.ofSpecs h.schema h.specs = .ok order) (hcheck : h.check = .ok ())
    (ys : Bytes) : decode (h.bytes ++ ys) = .ok (h.named, h.bytes.length) := by
  have hsum : (checksum h.body).toNat < 256 ^ 4 := (checksum h.body).toNat_lt
  rw [length_bytes, bytes, decode, ByteCursor.ofBytes_eq_ahead, List.append_assoc,
    fields_ahead hfits horder, Bytes.ofUInt32]
  dsimp only
  have htake : (h.body ++ (Bytes.ofNat 4 (checksum h.body).toNat ++ ys)).take
      (ahead h.body.length (Bytes.ofNat 4 (checksum h.body).toNat ++ ys)).position = h.body :=
    List.take_left
  rw [nat_ahead hsum, htake]
  dsimp only
  rw [if_neg (not_not_intro rfl), check_named, hcheck]
  rfl

/-- A header that is read back has its numbers and columns, and sort specs of the same keys.  They
name their columns whole, which finds the same ones even where a name is repeated. -/
theorem decode_encode_keeps_keys (hfits : h.Fits) (hschema : h.schema ≠ []) (hspecs : h.specs ≠ [])
    (hfound : ∀ s ∈ h.specs, ∃ i, h.schema.find s.column = .ok i) (hfactor : 1 ≤ h.loadFactor)
    (htop : topCountFor? h.entryCount h.loadFactor = some h.topCount) :
    ∃ bytes specs order again, specs = h.specs.map (SortSpec.named h.schema) ∧
      h.encode = .ok bytes ∧
      (∀ suffix, decode (bytes ++ suffix) = .ok ({ h with specs := specs }, bytes.length)) ∧
      RowOrder.ofSpecs h.schema h.specs = .ok order ∧
      RowOrder.ofSpecs h.schema specs = .ok again ∧ again.keys = order.keys := by
  obtain ⟨order, horder⟩ := RowOrder.exists_ofSpecs hfound
  have hcheck : h.check = .ok () :=
    check_eq_ok (Nat.one_le_iff_ne_zero.mp hfactor) htop hschema hspecs
  refine ⟨h.bytes, _, order, _, rfl, encode_eq_ok horder, ?_, horder,
    RowOrder.ofSpecs_named horder, rfl⟩
  intro suffix
  exact decode_bytes_append hfits horder hcheck suffix

/-- A header of qualified columns, two of one name, with a sort spec by a part of a name. -/
def sample : Header where
  loadFactor := 100
  entryCount := 10000
  topCount := 100
  topLength := 1300
  bottomLength := 130000
  schema := [⟨"t.id", .int4⟩, ⟨"t.name", .text⟩, ⟨"u.id", .int8⟩, ⟨"t.id", .float8⟩]
  specs := [⟨"name", false, true⟩, ⟨"t.id", true, false⟩]

theorem decode_encode_keeps_keys_sample : ∃ bytes again, sample.encode = .ok bytes ∧
    decode (bytes ++ [0xAA]) = .ok ({ sample with
      specs := [⟨"t.name", false, true⟩, ⟨"t.id", true, false⟩] }, bytes.length) ∧
    RowOrder.ofSpecs sample.schema [⟨"t.name", false, true⟩, ⟨"t.id", true, false⟩] = .ok again ∧
    again.keys = [⟨1, false, true⟩, ⟨0, true, false⟩] := by
  have hfits : sample.Fits := ⟨⟨by decide, by decide, by decide, by decide, by decide⟩, by decide,
    by decide, by decide⟩
  have hname : sample.schema.find "name" = .ok 1 := by cbv
  have hid : sample.schema.find "t.id" = .ok 0 := by cbv
  have hfound : ∀ s ∈ sample.specs, ∃ i, sample.schema.find s.column = .ok i := by
    intro s hs
    rw [sample, List.mem_cons, List.mem_singleton] at hs
    rcases hs with rfl | rfl
    · exact ⟨1, hname⟩
    · exact ⟨0, hid⟩
  have hnamed : sample.specs.map (SortSpec.named sample.schema) =
      [⟨"t.name", false, true⟩, ⟨"t.id", true, false⟩] := by cbv
  have hkeys : RowOrder.ofSpecs sample.schema sample.specs =
      .ok ⟨[⟨1, false, true⟩, ⟨0, true, false⟩], sample.specs⟩ := by cbv
  obtain ⟨bytes, _, order, again, rfl, hencode, hdecode, horder, hagain, hsame⟩ :=
    decode_encode_keeps_keys hfits (List.cons_ne_nil _ _) (List.cons_ne_nil _ _) hfound
      (by decide) (by decide)
  rw [hnamed] at hdecode hagain
  rw [hkeys] at horder
  cases horder
  exact ⟨bytes, again, hencode, hdecode [0xAA], hagain, hsame⟩

end BlockQuery.Index.Header
