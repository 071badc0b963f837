import BlockQuery.Proofs.Row.Prefix

/-!
# Stored rows end by themselves

The bytes of a row tell where they end.  All of them are needed, and none behind them: a row cut
short anywhere is found to be so, and rows one behind the other are read back one by one.
-/

namespace BlockQuery

namespace Row

/-- Whether bytes are rows from the front to the end, decoded one behind the other. -/
inductive DecodesTo : Bytes → List Row → Prop where
  | nil : DecodesTo [] []
  | cons {bytes : Bytes} {row : Row} {rows : List Row} {used : ℕ}
      (hfirst : decode bytes = .ok (row, used)) (hrest : DecodesTo (bytes.drop used) rows) :
      DecodesTo bytes (row :: rows)

/-- What it is for the stored bytes of a row to tell where they end. -/
structure Delimited (row : Row) : Prop where
  length_eq : row.encode.length = row.encodedLength
  decode_append : ∀ more, decode (row.encode ++ more) = .ok (row, row.encodedLength)
  decode_take : ∀ n < row.encode.length, ∃ needed position left,
    decode (row.encode.take n) = .error (.truncated needed position left)
  eq_of_isPrefix : ∀ other : Row, other.Storable → row.encode <+: other.encode → row = other

section Storable

variable {row : Row}

/-- Had anything else been found in fewer bytes, it would be found in all of them. -/
theorem decode_take_encode (h : row.Storable) {n : ℕ} (hn : n < row.encode.length) :
    ∃ needed position left,
      decode (row.encode.take n) = .error (.truncated needed position left) := by
  have hwhole : decode row.encode = .ok (row, row.encodedLength) := by
    have happend := decode_encode_append h []
    rwa [List.append_nil] at happend
  obtain ⟨taken, rest, htake, hcases⟩ := Read.follows_row (row.encode.take n)
  have hencode : row.encode = taken ++ (rest ++ row.encode.drop n) := by
    rw [← List.append_assoc, ← htake, List.take_append_drop]
  obtain ⟨found, -, hgives⟩ | ⟨s, -, hleft, hstops⟩ := hcases
  · have hfound := decode_of_gives hgives (rest ++ row.encode.drop n)
    rw [← hencode, hwhole] at hfound
    have hused : row.encodedLength = taken.length := congrArg Prod.snd (Except.ok.inj hfound)
    have hlength := congrArg List.length htake
    rw [List.length_take, List.length_append] at hlength
    rw [length_encode] at hn
    omega
  · rw [htake, decode_of_stops hstops hleft]
    have hfound : s.Leaves (rest ++ row.encode.drop n).length → False := by
      intro hleaves
      have herror := decode_of_stops hstops hleaves
      rw [← hencode, hwhole] at herror
      cases herror
    cases s with
    | short needed => exact ⟨_, _, _, rfl⟩
    | badTag tag => exact absurd trivial hfound
    | badText text => exact absurd trivial hfound

theorem eq_of_isPrefix_encode {a b : Row} (ha : a.Storable) (hb : b.Storable)
    (h : a.encode <+: b.encode) : a = b := by
  obtain ⟨more, hmore⟩ := h
  have hfirst := decode_encode_append ha more
  have hsecond := decode_encode_append hb []
  rw [List.append_nil, ← hmore, hfirst] at hsecond
  exact congrArg Prod.fst (Except.ok.inj hsecond)

theorem Storable.delimited (h : row.Storable) : row.Delimited where
  length_eq := length_encode row
  decode_append := decode_encode_append h
  decode_take _ hn := decode_take_encode h hn
  eq_of_isPrefix _ hother hprefix := eq_of_isPrefix_encode h hother hprefix

theorem decodesTo_flatMap_encode_iff {rows : List Row} (h : ∀ row ∈ rows, row.Storable)
    (found : List Row) : DecodesTo (rows.flatMap encode) found ↔ found = rows := by
  induction rows generalizing found with
  | nil =>
    constructor
    · intro hfound
      cases hfound with
      | nil => rfl
      | cons hfirst _ => cases hfirst
    · rintro rfl
      exact .nil
  | cons row rows ih =>
    obtain ⟨hrow, hrows⟩ := List.forall_mem_cons.mp h
    have hdecode := decode_encode_append hrow (rows.flatMap encode)
    have hdrop : (row.encode ++ rows.flatMap encode).drop row.encodedLength =
        rows.flatMap encode := by
      rw [← length_encode, List.drop_left]
    rw [List.flatMap_cons]
    constructor
    · intro hfound
      generalize hbytes : row.encode ++ rows.flatMap encode = bytes at hfound
      cases hfound with
      | nil =>
        have hlength := congrArg List.length hbytes
        have htwo := two_le_encodedLength row
        rw [List.length_append, length_encode, List.length_nil] at hlength
        omega
      | cons hfirst hrest =>
        subst hbytes
        rw [hdecode] at hfirst
        cases hfirst
        rw [hdrop] at hrest
        rw [(ih hrows _).mp hrest]
    · rintro rfl
      refine .cons hdecode ?_
      rw [hdrop]
      exact (ih hrows rows).mpr rfl

end Storable

/-- Rows that can be stored end by themselves, alone and one behind the other, and on any bytes
decoding takes no more than there are or fails with an error of its own. -/
theorem delimited_of_storable {rows : List Row} (h : ∀ row ∈ rows, row.Storable) :
    (∀ row ∈ rows, row.Delimited) ∧
    (∀ found, DecodesTo (rows.flatMap encode) found ↔ found = rows) ∧
    ∀ bytes, (∃ row used, decode bytes = .ok (row, used) ∧ used ≤ bytes.length) ∨
      ∃ (s : Stop) (position left : ℕ), decode bytes = .error (s.error position left) := by
  refine ⟨fun row hrow => (h row hrow).delimited, decodesTo_flatMap_encode_iff h, ?_⟩
  intro bytes
  obtain ⟨taken, rest, rfl, ⟨row, -, hgives⟩ | ⟨s, -, hleft, hstops⟩⟩ := Read.follows_row bytes
  · refine Or.inl ⟨row, taken.length, decode_of_gives hgives rest, ?_⟩
    rw [List.length_append]
    exact Nat.le_add_right _ _
  · exact Or.inr ⟨s, _, _, decode_of_stops hstops hleft⟩

/-- A row of values of all types, the double a NaN. -/
def ofAllTypes : Row :=
  [.int4 (-42), .null, .text "dept_7", .float8 ⟨0x7FF8000000000001⟩, .bool true,
    .int8 1099511627776]

theorem delimited_of_all_types : decode (ofAllTypes.encode ++ [0xAA, 0xBB]) = .ok (ofAllTypes, 39) ∧
    (∃ needed position left,
      decode (ofAllTypes.encode.take 36) = .error (.truncated needed position left)) ∧
    ∀ found, DecodesTo (ofAllTypes.encode ++ encode []) found ↔ found = [ofAllTypes, []] := by
  have hstorable : ∀ row ∈ [ofAllTypes, []], row.Storable := by
    have htext : (Bytes.ofText "dept_7").length < 2 ^ 32 := by decide
    intro row hrow
    rw [List.mem_cons, List.mem_singleton] at hrow
    rcases hrow with rfl | rfl
    · refine ⟨by decide, ?_⟩
      simpa [ofAllTypes, Datum.Storable] using htext
    · exact ⟨by decide, fun d hd => absurd hd List.not_mem_nil⟩
  obtain ⟨hdelimited, hdecodes, -⟩ := delimited_of_storable hstorable
  have hrow := hdelimited ofAllTypes List.mem_cons_self
  have hlength : ofAllTypes.encodedLength = 39 := by decide
  refine ⟨hlength ▸ hrow.decode_append [0xAA, 0xBB], hrow.decode_take 36 ?_, ?_⟩
  · rw [hrow.length_eq, hlength]
    decide
  · intro found
    have hconcat : [ofAllTypes, []].flatMap encode = ofAllTypes.encode ++ encode [] := by
      rw [List.flatMap_cons, List.flatMap_singleton]
    rw [← hconcat]
    exact hdecodes found

end Row
end BlockQuery
