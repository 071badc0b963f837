import BlockQuery.Proofs.Row.Codec

/-!
# How reads end

A read takes its bytes piece by piece.  Either it gives a value, which is spelled by the bytes
taken, or it stops behind some bytes: the next piece is longer than what is left, or the piece
taken last is a tag or a text that cannot stand there.  What lies further ahead changes nothing.
-/

namespace BlockQuery

open ByteCursor (ahead)

/-- What stops a read: a piece of more bytes than are left, an unknown tag, or bytes that are no
text. -/
inductive Stop where
  | short (needed : ℕ)
  | badTag (tag : UInt8)
  | badText (text : Bytes)

namespace Stop

/-- The error of a read that has stopped at a position with some bytes left. -/
def error (position left : ℕ) : Stop → DecodeError
  | short needed => .truncated needed position left
  | badTag tag => .invalidTag tag
  | badText text => .invalidText (position - text.length)

/-- Whether a read stops with so many bytes left. -/
def Leaves (left : ℕ) : Stop → Prop
  | short needed => left < needed
  | _ => True

end Stop

/-- The tags behind which a number of fixed length comes, and that length. -/
def fixedPayloads : List (UInt8 × ℕ) := [(1, 1), (2, 4), (3, 8), (4, 8)]

/-! ## What bytes spell -/

namespace Bytes

theorem ofNat_toNat (bs : Bytes) : ofNat bs.length (toNat bs) = bs := by
  induction bs with
  | nil => rfl
  | cons b bs ih =>
    have hfirst : UInt8.ofNat (b.toNat + 256 * toNat bs) = b := by
      apply UInt8.toNat.inj
      have hb : b.toNat < 256 := b.toNat_lt
      rw [UInt8.toNat_ofNat']
      omega
    have hrest : (b.toNat + 256 * toNat bs) / 256 = toNat bs := by
      have hb : b.toNat < 256 := b.toNat_lt
      omega
    rw [List.length_cons, toNat, ofNat, hfirst, hrest, ih]

theorem ofNat_of_length {bs : Bytes} {width : ℕ} (h : bs.length = width) :
    ofNat width bs.toNat = bs := by
  subst h
  exact ofNat_toNat bs

theorem lt_of_length {bs : Bytes} {width : ℕ} (h : bs.length = width) :
    bs.toNat < 256 ^ width := h ▸ toNat_lt bs

theorem ofUInt32_ofNat {bs : Bytes} (h : bs.length = 4) :
    ofUInt32 (UInt32.ofNat bs.toNat) = bs := by
  have hlt : bs.toNat < 2 ^ 32 := lt_of_length h
  rw [ofUInt32, UInt32.toNat_ofNat', Nat.mod_eq_of_lt hlt, ofNat_of_length h]

theorem ofUInt64_ofNat {bs : Bytes} (h : bs.length = 8) :
    ofUInt64 (UInt64.ofNat bs.toNat) = bs := by
  have hlt : bs.toNat < 2 ^ 64 := lt_of_length h
  rw [ofUInt64, UInt64.toNat_ofNat', Nat.mod_eq_of_lt hlt, ofNat_of_length h]

theorem toNat_singleton (b : UInt8) : toNat [b] = b.toNat := by
  simp [toNat]

/-- Whether bytes are those of a text behind the number of its bytes. -/
def SpellText (bs : Bytes) (s : String) : Prop :=
  bs = ofSizedText s ∧ (ofText s).length < 2 ^ 32

/-- Whether a read of a text stops behind some bytes. -/
inductive StopText : Bytes → Stop → Prop where
  | length : StopText [] (.short 4)
  | short {length : Bytes} (hlength : length.length = 4) : StopText length (.short length.toNat)
  | badText {length text : Bytes} (hlength : length.length = 4) (htext : text.length = length.toNat)
      (hbad : toText? text = none) : StopText (length ++ text) (.badText text)

/-- Whether bytes are those of a value.  Other bytes than one may stand for a true boolean. -/
def SpellDatum (bs : Bytes) : Datum → Prop
  | .bool b => ∃ byte : UInt8, bs = [1, byte] ∧ b = (byte != 0)
  | d => bs = d.encode ∧ d.Storable

/-- Whether a read of a value stops behind some bytes. -/
inductive StopDatum : Bytes → Stop → Prop where
  | tag : StopDatum [] (.short 1)
  | payload {tag : UInt8} {width : ℕ} (hpayload : (tag, width) ∈ fixedPayloads) :
      StopDatum [tag] (.short width)
  | text {bs : Bytes} {s : Stop} (htext : StopText bs s) : StopDatum (5 :: bs) s
  | badTag {tag : UInt8} (hunknown : 5 < tag) : StopDatum [tag] (.badTag tag)

/-- Whether bytes are those of values one behind the other. -/
inductive SpellData : Bytes → Row → Prop where
  | nil : SpellData [] []
  | cons {bs more : Bytes} {d : Datum} {row : Row} (hfirst : bs.SpellDatum d)
      (hrest : SpellData more row) : SpellData (bs ++ more) (d :: row)

/-- Whether bytes are those of a row: the number of its values and these. -/
def SpellRow (bs : Bytes) (row : Row) : Prop :=
  row.length < 2 ^ 16 ∧ ∃ values, bs = ofNat 2 row.length ++ values ∧ values.SpellData row

/-- Whether a read of so many values stops behind some bytes, within the value that comes next. -/
def StopData (count : ℕ) (bs : Bytes) (s : Stop) : Prop :=
  ∃ values part row, bs = values ++ part ∧ values.SpellData row ∧ row.length < count ∧
    part.StopDatum s

/-- Whether a read of a row stops behind some bytes. -/
inductive StopRow : Bytes → Stop → Prop where
  | count : StopRow [] (.short 2)
  | value {count values : Bytes} {s : Stop} (hcount : count.length = 2)
      (hvalue : values.StopData count.toNat s) : StopRow (count ++ values) s

end Bytes

namespace Read

variable {α β : Type}

/-! ## Reads that follow a spelling -/

/-- Whether a read with these bytes ahead takes just them and gives a value. -/
def Gives (x : Read α) (taken : Bytes) (a : α) : Prop :=
  ∀ p rest, x (ahead p (taken ++ rest)) = (.ok a, ahead (p + taken.length) rest)

/-- Whether a read with these bytes ahead stops behind them. -/
def Stops (x : Read α) (taken : Bytes) (s : Stop) : Prop :=
  ∀ p rest, s.Leaves rest.length → x (ahead p (taken ++ rest)) =
    (.error (s.error (p + taken.length) rest.length), ahead (p + taken.length) rest)

/-- Whether a read, whatever is ahead, gives what the bytes taken spell or stops where it may. -/
def Follows (spell : Bytes → α → Prop) (stop : Bytes → Stop → Prop) (x : Read α) : Prop :=
  ∀ data, ∃ taken rest, data = taken ++ rest ∧
    ((∃ a, spell taken a ∧ Gives x taken a) ∨
      ∃ s, stop taken s ∧ s.Leaves rest.length ∧ Stops x taken s)

section Follows

variable {x : Read α} {f : α → Read β} {a : α} {b : β} {s : Stop} {taken more : Bytes}
  {spell spell' : Bytes → α → Prop} {stop stop' : Bytes → Stop → Prop}

theorem Gives.bind (hx : Gives x taken a) (hf : Gives (f a) more b) :
    Gives (x >>= f) (taken ++ more) b := by
  intro p rest
  rw [List.append_assoc, bind_of_ok (hx p _), hf, List.length_append, Nat.add_assoc]

theorem Gives.bind_stops (hx : Gives x taken a) (hf : Stops (f a) more s) :
    Stops (x >>= f) (taken ++ more) s := by
  intro p rest hleft
  rw [List.append_assoc, bind_of_ok (hx p _), hf _ _ hleft, List.length_append, Nat.add_assoc]

theorem Stops.bind (hx : Stops x taken s) (f : α → Read β) : Stops (x >>= f) taken s := by
  intro p rest hleft
  rw [bind_apply, hx p rest hleft]

theorem Follows.mono (h : Follows spell stop x) (hspell : ∀ bs a, spell bs a → spell' bs a)
    (hstop : ∀ bs s, stop bs s → stop' bs s) : Follows spell' stop' x := by
  intro data
  obtain ⟨taken, rest, hdata, ⟨a, ha, hgives⟩ | ⟨s, hs, hleft, hstops⟩⟩ := h data
  · exact ⟨taken, rest, hdata, Or.inl ⟨a, hspell _ _ ha, hgives⟩⟩
  · exact ⟨taken, rest, hdata, Or.inr ⟨s, hstop _ _ hs, hleft, hstops⟩⟩

/-- What a read gave is spelled by the bytes that it took, and it gives that whenever they come. -/
theorem Follows.of_ok (h : Follows spell stop x) {p : ℕ} {data : Bytes} {d : ByteCursor}
    (hread : x (ahead p data) = (.ok a, d)) : ∃ taken rest, data = taken ++ rest ∧
      d = ahead (p + taken.length) rest ∧ spell taken a ∧ Gives x taken a := by
  obtain ⟨taken, rest, rfl, ⟨found, hfound, hgives⟩ | ⟨s, -, hleft, hstops⟩⟩ := h data
  · rw [hgives] at hread
    cases hread
    exact ⟨taken, rest, rfl, rfl, hfound, hgives⟩
  · rw [hstops p rest hleft] at hread
    cases hread

theorem follows_pure {spell : Bytes → α → Prop} (h : spell [] a) :
    Follows spell stop (pure a) := by
  intro data
  exact ⟨[], data, rfl, Or.inl ⟨a, h, fun _ _ => rfl⟩⟩

theorem follows_fail {e : DecodeError} (h : stop [] s) (hleaves : ∀ left, s.Leaves left)
    (he : ∀ p left, s.error p left = e) : Follows spell stop (fail e) := by
  intro data
  refine ⟨[], data, rfl, Or.inr ⟨s, h, hleaves _, ?_⟩⟩
  intro p rest _
  rw [he]
  rfl

theorem Follows.bind {spell' : Bytes → β → Prop} (hx : Follows spell stop x)
    (hstop : ∀ bs s, stop bs s → stop' bs s)
    (hf : ∀ taken a, spell taken a → Follows (fun more b => spell' (taken ++ more) b)
      (fun more s => stop' (taken ++ more) s) (f a)) : Follows spell' stop' (x >>= f) := by
  intro data
  obtain ⟨taken, rest, rfl, ⟨a, ha, hgives⟩ | ⟨s, hs, hleft, hstops⟩⟩ := hx data
  · obtain ⟨more, rest, rfl, ⟨b, hb, hthen⟩ | ⟨s, hs, hleft, hthen⟩⟩ := hf taken a ha rest
    · exact ⟨taken ++ more, rest, (List.append_assoc _ _ _).symm,
        Or.inl ⟨b, hb, hgives.bind hthen⟩⟩
    · exact ⟨taken ++ more, rest, (List.append_assoc _ _ _).symm,
        Or.inr ⟨s, hs, hleft, hgives.bind_stops hthen⟩⟩
  · exact ⟨taken, rest, rfl, Or.inr ⟨s, hstop _ _ hs, hleft, hstops.bind f⟩⟩

end Follows

/-! ## Bytes and numbers -/

theorem gives_bytes {bs : Bytes} {n : ℕ} (h : bs.length = n) : Gives (bytes n) bs bs := by
  intro p rest
  rw [bytes_ahead h, h]

theorem stops_bytes (n : ℕ) : Stops (bytes n) [] (.short n) := by
  intro p rest hleft
  have hshort : (ahead p rest).remaining < n := by
    simpa [ahead, ByteCursor.remaining, Stop.Leaves] using hleft
  rw [List.nil_append, bytes, if_pos hshort]
  simp [Stop.error, ahead, ByteCursor.remaining]

/-- Bytes that are enough are split where the read ends. -/
theorem exists_length_eq {n : ℕ} {data : Bytes} (h : n ≤ data.length) :
    ∃ taken rest, data = taken ++ rest ∧ taken.length = n :=
  ⟨_, _, (List.take_append_drop n data).symm, List.length_take_of_le h⟩

theorem follows_bytes (n : ℕ) : Follows (fun taken bs => taken = bs ∧ bs.length = n)
    (fun taken s => taken = [] ∧ s = .short n) (bytes n) := by
  intro data
  by_cases hshort : data.length < n
  · exact ⟨[], data, rfl, Or.inr ⟨_, ⟨rfl, rfl⟩, hshort, stops_bytes n⟩⟩
  · obtain ⟨taken, rest, rfl, rfl⟩ := exists_length_eq (Nat.not_lt.mp hshort)
    exact ⟨taken, rest, rfl, Or.inl ⟨taken, ⟨rfl, rfl⟩, gives_bytes rfl⟩⟩

theorem follows_nat (width : ℕ) : Follows (fun taken n => taken.length = width ∧ taken.toNat = n)
    (fun taken s => taken = [] ∧ s = .short width) (nat width) := by
  apply (follows_bytes width).bind (fun _ _ h => h)
  rintro taken bs ⟨rfl, hlength⟩
  apply follows_pure
  rw [List.append_nil]
  exact ⟨hlength, rfl⟩

/-! ## Texts, values and rows -/

theorem follows_text : Follows Bytes.SpellText Bytes.StopText text := by
  apply (follows_nat 4).bind
  · rintro _ _ ⟨rfl, rfl⟩
    exact .length
  rintro length n ⟨hlength, rfl⟩
  intro data
  by_cases hshort : data.length < length.toNat
  · refine ⟨[], data, rfl, Or.inr ⟨.short length.toNat, ?_, hshort, ?_⟩⟩
    · dsimp only
      rw [List.append_nil]
      exact .short hlength
    · intro p rest hleft
      exact (stops_bytes length.toNat).bind _ p rest hleft
  · obtain ⟨bs, rest, rfl, hbs⟩ := exists_length_eq (Nat.not_lt.mp hshort)
    -- The place where the text begins is read before it, for the error.
    have hplace : ∀ p rest, position (ahead p (bs ++ rest)) = (.ok p, ahead p (bs ++ rest)) :=
      fun _ _ => rfl
    have hbytes : Gives (bytes length.toNat) bs bs := gives_bytes hbs
    cases htext : Bytes.toText? bs with
    | some s =>
      have hs : Bytes.ofText s = bs := Bytes.ofText_of_toText? htext
      refine ⟨bs, rest, rfl, Or.inl ⟨s, ⟨?_, ?_⟩, ?_⟩⟩
      · rw [Bytes.ofSizedText, hs, hbs, Bytes.ofNat_of_length hlength]
      · rw [hs, hbs]
        exact Bytes.lt_of_length hlength
      · intro p rest
        rw [bind_of_ok (hplace p rest), bind_of_ok (hbytes p rest), htext]
        rfl
    | none =>
      refine ⟨bs, rest, rfl, Or.inr ⟨.badText bs, .badText hlength hbs htext, trivial, ?_⟩⟩
      intro p rest _
      rw [bind_of_ok (hplace p rest), bind_of_ok (hbytes p rest), htext, Stop.error,
        Nat.add_sub_cancel]
      rfl

/-- The payload of fixed length behind a tag. -/
theorem follows_payload {tag : UInt8} {width : ℕ} {f : ℕ → Datum}
    (hpayload : (tag, width) ∈ fixedPayloads)
    (hspell : ∀ bs : Bytes, bs.length = width → Bytes.SpellDatum (tag :: bs) (f bs.toNat)) :
    Follows (fun more d => Bytes.SpellDatum ([tag] ++ more) d)
      (fun more s => Bytes.StopDatum ([tag] ++ more) s) (nat width >>= fun n => pure (f n)) := by
  apply (follows_nat width).bind
  · rintro _ _ ⟨rfl, rfl⟩
    exact .payload hpayload
  · rintro bs n ⟨hlength, rfl⟩
    apply follows_pure
    rw [List.append_nil]
    exact hspell bs hlength

theorem follows_datum : Follows Bytes.SpellDatum Bytes.StopDatum datum := by
  apply (follows_nat 1).bind
  · rintro _ _ ⟨rfl, rfl⟩
    exact .tag
  rintro taken n ⟨hlength, rfl⟩
  obtain ⟨tag, rfl⟩ := List.length_eq_one_iff.mp hlength
  rw [Bytes.toNat_singleton]
  have htag : ∀ t : UInt8, tag.toNat = t.toNat → tag = t := fun _ => UInt8.toNat.inj
  -- The tags from zero to five in turn, and then all others.
  split
  next h =>
    obtain rfl := htag 0 h
    exact follows_pure ⟨rfl, trivial⟩
  next h =>
    obtain rfl := htag 1 h
    apply follows_payload (by decide)
    intro bs hbs
    obtain ⟨b, rfl⟩ := List.length_eq_one_iff.mp hbs
    refine ⟨b, rfl, ?_⟩
    rw [Bytes.toNat_singleton, Bool.eq_iff_iff, bne_iff_ne, bne_iff_ne]
    exact not_congr (UInt8.toNat_inj (b := 0))
  next h =>
    obtain rfl := htag 2 h
    apply follows_payload (by decide)
    intro bs hbs
    refine ⟨?_, trivial⟩
    rw [Datum.encode, UInt32.toUInt32_toInt32, Bytes.ofUInt32_ofNat hbs]
  next h =>
    obtain rfl := htag 3 h
    apply follows_payload (by decide)
    intro bs hbs
    refine ⟨?_, trivial⟩
    rw [Datum.encode, UInt64.toUInt64_toInt64, Bytes.ofUInt64_ofNat hbs]
  next h =>
    obtain rfl := htag 4 h
    apply follows_payload (by decide)
    intro bs hbs
    refine ⟨?_, trivial⟩
    rw [Datum.encode, Bytes.ofUInt64_ofNat hbs]
  next h =>
    obtain rfl := htag 5 h
    apply follows_text.bind
    · intro bs s hs
      exact .text hs
    · rintro bs s ⟨rfl, hs⟩
      apply follows_pure
      rw [List.append_nil]
      exact ⟨rfl, hs⟩
  next h₀ h₁ h₂ h₃ h₄ h₅ =>
    have hunknown : 5 < tag := by
      simp only [imp_false] at h₀ h₁ h₂ h₃ h₄ h₅
      change 5 < tag.toNat
      omega
    apply follows_fail (s := .badTag tag) (.badTag hunknown) (fun _ => trivial)
    intro p left
    rw [UInt8.ofNat_toNat]
    rfl

/-- Induct on the values that are left; those before them wait in reverse. -/
theorem follows_data (n : ℕ) (done : Row) : Follows
    (fun bs row => ∃ values, row = done.reverse ++ values ∧ values.length = n ∧ bs.SpellData values)
    (fun bs s => bs.StopData n s) (data n done) := by
  induction n generalizing done with
  | zero =>
    apply follows_pure
    exact ⟨[], (List.append_nil _).symm, rfl, .nil⟩
  | succ n ih =>
    apply follows_datum.bind
    · intro bs s hs
      exact ⟨[], bs, [], rfl, .nil, Nat.succ_pos n, hs⟩
    · intro bs d hd
      apply (ih (d :: done)).mono
      · rintro more row ⟨values, rfl, rfl, hvalues⟩
        refine ⟨d :: values, ?_, rfl, .cons hd hvalues⟩
        rw [List.reverse_cons, List.append_assoc, List.singleton_append]
      · rintro more s ⟨values, part, row, rfl, hvalues, hlt, hpart⟩
        exact ⟨bs ++ values, part, d :: row, (List.append_assoc _ _ _).symm, .cons hd hvalues,
          Nat.succ_lt_succ hlt, hpart⟩

theorem follows_row : Follows Bytes.SpellRow Bytes.StopRow row := by
  apply (follows_nat 2).bind
  · rintro _ _ ⟨rfl, rfl⟩
    exact .count
  rintro count n ⟨hcount, rfl⟩
  apply (follows_data count.toNat []).mono
  · rintro bs row ⟨values, rfl, hlength, hvalues⟩
    refine ⟨hlength ▸ Bytes.lt_of_length hcount, bs, ?_, hvalues⟩
    rw [hlength, Bytes.ofNat_of_length hcount]
  · intro bs s hs
    exact .value hcount hs

end Read
end BlockQuery
