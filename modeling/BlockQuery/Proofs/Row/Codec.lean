import Mathlib.Tactic
import BlockQuery.Row.Codec

/-!
# Reading back stored rows

A stored row is read back from in front of any bytes.  The cursor then stands
behind the row, so that rows can follow each other.
-/

namespace BlockQuery

namespace Bytes

theorem toNat_ofNat_of_lt {width n : ℕ} (h : n < 256 ^ width) : toNat (ofNat width n) = n := by
  rw [toNat_ofNat]
  exact Nat.mod_eq_of_lt h

theorem toNat_lt (bs : Bytes) : bs.toNat < 256 ^ bs.length := by
  induction bs with
  | nil => simp [toNat]
  | cons b bs ih =>
    have hb : b.toNat < 256 := b.toNat_lt
    rw [toNat, List.length_cons, Nat.pow_succ]
    omega

theorem ofText_of_toText? {bs : Bytes} {s : String} (h : toText? bs = some s) :
    ofText s = bs := by
  rw [toText?, String.fromUTF8?] at h
  split at h
  · cases h
    rfl
  · cases h

end Bytes

namespace Read

variable {ε α β : Type}

theorem bind_apply (x : ExceptT ε (StateM ByteCursor) α) (f : α → ExceptT ε (StateM ByteCursor) β)
    (c : ByteCursor) : (x >>= f) c = match x c with
      | (.ok a, c) => f a c
      | (.error e, c) => (.error e, c) := by
  change (ExceptT.bindCont f (x c).1) (x c).2 = _
  rcases x c with ⟨_ | _, _⟩ <;> rfl

theorem pure_apply (a : α) (c : ByteCursor) :
    (pure a : ExceptT ε (StateM ByteCursor) α) c = (.ok a, c) := rfl

theorem bind_of_ok {x : ExceptT ε (StateM ByteCursor) α}
    {f : α → ExceptT ε (StateM ByteCursor) β} {c d : ByteCursor} {a : α}
    (h : x c = (.ok a, d)) : (x >>= f) c = f a d := by
  rw [bind_apply, h]

end Read

namespace ByteCursor

/-- A cursor with the given bytes ahead of it. -/
def ahead (position : ℕ) (rest : Bytes) : ByteCursor := ⟨position + rest.length, position, rest⟩

theorem ofBytes_eq_ahead (data : Bytes) : ofBytes data = ahead 0 data := by
  simp [ofBytes, startAt, ahead]

end ByteCursor

open ByteCursor (ahead)

namespace Read

theorem bytes_ahead {n : ℕ} {xs : Bytes} (h : xs.length = n) (p : ℕ) (ys : Bytes) :
    bytes n (ahead p (xs ++ ys)) = (.ok xs, ahead (p + n) ys) := by
  subst h
  have h₁ : ¬ (ahead p (xs ++ ys)).remaining < xs.length := by
    simp [ahead, ByteCursor.remaining]
  have h₂ : ¬ (ahead p (xs ++ ys)).size < (ahead p (xs ++ ys)).position := by
    simp [ahead]
  rw [bytes, if_neg h₁, if_neg h₂]
  simp [ahead, Nat.add_assoc]

theorem nat_ahead (width n p : ℕ) (ys : Bytes) :
    nat width (ahead p (Bytes.ofNat width n ++ ys)) =
      (.ok (n % 256 ^ width), ahead (p + width) ys) := by
  rw [nat, bind_of_ok (bytes_ahead (Bytes.length_ofNat width n) p ys), Bytes.toNat_ofNat]
  rfl

theorem nat_ahead_of_lt {width n : ℕ} (h : n < 256 ^ width) (p : ℕ) (ys : Bytes) :
    nat width (ahead p (Bytes.ofNat width n ++ ys)) = (.ok n, ahead (p + width) ys) := by
  rw [nat_ahead, Nat.mod_eq_of_lt h]

theorem nat_ahead_byte (b : UInt8) (p : ℕ) (ys : Bytes) :
    nat 1 (ahead p (b :: ys)) = (.ok b.toNat, ahead (p + 1) ys) := by
  have h : bytes 1 (ahead p (b :: ys)) = (.ok [b], ahead (p + 1) ys) :=
    @bytes_ahead 1 [b] rfl p ys
  rw [nat, bind_of_ok h]
  rfl

theorem text_ahead {s : String} (h : (Bytes.ofText s).length < 2 ^ 32) (p : ℕ) (ys : Bytes) :
    text (ahead p (Bytes.ofSizedText s ++ ys)) =
      (.ok s, ahead (p + (Bytes.ofSizedText s).length) ys) := by
  have hlt : (Bytes.ofText s).length < 256 ^ 4 := h
  rw [text, Bytes.ofSizedText, List.append_assoc, bind_of_ok (nat_ahead_of_lt hlt p _),
    bind_of_ok (show position (ahead (p + 4) (Bytes.ofText s ++ ys)) = (.ok (p + 4), _) from rfl),
    bind_of_ok (bytes_ahead rfl (p + 4) ys), Bytes.toText?_ofText]
  simp [pure_apply, Nat.add_assoc]

end Read

/-! ## Values and rows -/

/-- Whether the length of a text can be stored. -/
def Datum.Storable : Datum → Prop
  | text s => (Bytes.ofText s).length < 2 ^ 32
  | _ => True

/-- Whether the number of values of a row and the lengths of its texts can be stored. -/
def Row.Storable (row : Row) : Prop := row.length < 2 ^ 16 ∧ ∀ d ∈ row, d.Storable

namespace Read

theorem datum_ahead {d : Datum} (h : d.Storable) (p : ℕ) (ys : Bytes) :
    datum (ahead p (d.encode ++ ys)) = (.ok d, ahead (p + d.encodedLength) ys) := by
  cases d with
  | null => rw [datum, Datum.encode, List.cons_append, bind_of_ok (nat_ahead_byte 0 p _)]; rfl
  | bool b =>
    rw [datum, Datum.encode, List.cons_append, bind_of_ok (nat_ahead_byte 1 p _)]
    change (nat 1 >>= _) (ahead (p + 1) ((if b then 1 else 0) :: ys)) = _
    rw [bind_of_ok (nat_ahead_byte _ (p + 1) ys)]
    cases b <;> rfl
  | int4 n =>
    have hn : n.toUInt32.toNat < 256 ^ 4 := n.toUInt32.toNat_lt
    rw [datum, Datum.encode, List.cons_append, bind_of_ok (nat_ahead_byte 2 p _), Bytes.ofUInt32]
    change (nat 4 >>= _) _ = _
    rw [bind_of_ok (nat_ahead_of_lt hn (p + 1) ys)]
    simp [pure_apply, Datum.encodedLength, Nat.add_assoc]
  | int8 n =>
    have hn : n.toUInt64.toNat < 256 ^ 8 := n.toUInt64.toNat_lt
    rw [datum, Datum.encode, List.cons_append, bind_of_ok (nat_ahead_byte 3 p _), Bytes.ofUInt64]
    change (nat 8 >>= _) _ = _
    rw [bind_of_ok (nat_ahead_of_lt hn (p + 1) ys)]
    simp [pure_apply, Datum.encodedLength, Nat.add_assoc]
  | float8 x =>
    have hx : x.bits.toNat < 256 ^ 8 := x.bits.toNat_lt
    rw [datum, Datum.encode, List.cons_append, bind_of_ok (nat_ahead_byte 4 p _), Bytes.ofUInt64]
    change (nat 8 >>= _) _ = _
    rw [bind_of_ok (nat_ahead_of_lt hx (p + 1) ys)]
    simp [pure_apply, Datum.encodedLength, Nat.add_assoc]
  | text s =>
    rw [datum, Datum.encode, List.cons_append, bind_of_ok (nat_ahead_byte 5 p _)]
    change (text >>= _) _ = _
    have hlen : p + 1 + (Bytes.ofSizedText s).length = p + (Datum.text s).encodedLength := by
      simp only [Bytes.ofSizedText, List.length_append, Bytes.length_ofNat, Datum.encodedLength]
      omega
    rw [bind_of_ok (text_ahead h (p + 1) ys), hlen]
    rfl

/-- Induct on the values that are left; those before them wait in reverse. -/
theorem data_ahead {row : Row} (h : ∀ d ∈ row, d.Storable) (done : Row) (p : ℕ) (ys : Bytes) :
    data row.length done (ahead p (row.flatMap Datum.encode ++ ys)) =
      (.ok (done.reverse ++ row), ahead (p + (row.flatMap Datum.encode).length) ys) := by
  induction row generalizing done p with
  | nil => simp [data, pure_apply]
  | cons d row ih =>
    have hd : d.Storable := h d List.mem_cons_self
    have hrow : ∀ d ∈ row, d.Storable := fun d hd => h d (List.mem_cons_of_mem _ hd)
    rw [List.length_cons, data, List.flatMap_cons, List.append_assoc,
      bind_of_ok (datum_ahead hd p _), ih hrow]
    simp [Nat.add_assoc]

end Read

namespace Row

theorem encodedLength_cons (d : Datum) (row : Row) :
    encodedLength (d :: row) = d.encodedLength + encodedLength row := rfl

theorem length_encode (row : Row) : row.encode.length = row.encodedLength := by
  have h : ∀ row : Row, (row.flatMap Datum.encode).length + 2 =
      row.foldr (fun d n => d.encodedLength + n) 2 := by
    intro row
    induction row with
    | nil => rfl
    | cons d row ih =>
      simp only [List.flatMap_cons, List.length_append, Datum.length_encode, List.foldr_cons, ← ih]
      omega
  rw [encode, encodedLength, List.length_append, Bytes.length_ofNat, ← h row]
  omega

theorem two_le_encodedLength (row : Row) : 2 ≤ row.encodedLength := by
  rw [← length_encode, encode]
  simp

end Row

theorem Read.row_ahead {row : Row} (h : row.Storable) (p : ℕ) (ys : Bytes) :
    Read.row (ahead p (row.encode ++ ys)) = (.ok row, ahead (p + row.encodedLength) ys) := by
  have hlen : row.length < 256 ^ 2 := h.1
  rw [← Row.length_encode, Read.row, Row.encode, List.append_assoc,
    bind_of_ok (nat_ahead_of_lt hlen p _), data_ahead h.2]
  simp [Nat.add_assoc]

/-- A stored row is read back whatever follows it. -/
theorem Row.decode_encode_append {row : Row} (h : row.Storable) (ys : Bytes) :
    Row.decode (row.encode ++ ys) = .ok (row, row.encodedLength) := by
  rw [Row.decode, ByteCursor.ofBytes_eq_ahead, Read.row_ahead h]
  simp [ahead]

/-- Rows of one length are stored differently if they differ, however many values they have. -/
theorem Row.eq_of_encode_eq {a b : Row} (hlength : a.length = b.length)
    (ha : ∀ d ∈ a, d.Storable) (hb : ∀ d ∈ b, d.Storable) (h : a.encode = b.encode) : a = b := by
  rw [encode, encode, hlength] at h
  have hread := Read.data_ahead ha [] 0 []
  rw [List.append_cancel_left h, hlength, Read.data_ahead hb] at hread
  exact (Except.ok.inj (congrArg Prod.fst hread)).symm

end BlockQuery
