import BlockQuery.Proofs.Row.Endings

/-!
# Reads do not look ahead

A read that succeeds takes some bytes, and would have given the same with any
other bytes behind them.  A row that was decoded has taken as many bytes as it
would be stored in, and is so decoded again when more bytes follow it.
-/

namespace BlockQuery

open ByteCursor (ahead)

namespace Bytes

variable {bs : Bytes} {d : Datum} {row : Row}

theorem SpellDatum.length_eq (h : bs.SpellDatum d) : bs.length = d.encodedLength := by
  cases d with
  | bool b =>
    obtain ⟨byte, rfl, -⟩ := h
    rfl
  | null => rw [h.1, Datum.length_encode]
  | int4 n => rw [h.1, Datum.length_encode]
  | int8 n => rw [h.1, Datum.length_encode]
  | float8 x => rw [h.1, Datum.length_encode]
  | text s => rw [h.1, Datum.length_encode]

theorem SpellData.length_eq (h : bs.SpellData row) : row.encodedLength = bs.length + 2 := by
  induction h with
  | nil => rfl
  | cons hfirst _ ih =>
    rw [Row.encodedLength_cons, ih, List.length_append, hfirst.length_eq, Nat.add_assoc]

theorem SpellRow.length_eq (h : bs.SpellRow row) : row.encodedLength = bs.length := by
  obtain ⟨-, values, rfl, hvalues⟩ := h
  rw [hvalues.length_eq, List.length_append, length_ofNat, Nat.add_comm]

end Bytes

namespace Read

variable {ε α β : Type}

/-- Whether what a read gives depends only on the bytes that it takes. -/
def Takes (x : ExceptT ε (StateM ByteCursor) α) : Prop :=
  ∀ p bytes a d, x (ahead p bytes) = (.ok a, d) → ∃ taken rest, bytes = taken ++ rest ∧
    ∀ more, x (ahead p (taken ++ more)) = (.ok a, ahead (p + taken.length) more)

section Takes

variable {x : ExceptT ε (StateM ByteCursor) α} {p n : ℕ} {data : Bytes} {a : α} {d : ByteCursor}

theorem Takes.le_position (h : Takes x) (hread : x (ahead p data) = (.ok a, d)) :
    p ≤ d.position := by
  obtain ⟨taken, rest, rfl, htaken⟩ := h p data a d hread
  rw [htaken rest] at hread
  cases hread
  exact Nat.le_add_right _ _

/-- What was read is told by as many bytes as the read has moved ahead. -/
theorem Takes.of_position (h : Takes x) (hread : x (ahead p data) = (.ok a, d))
    (hposition : d.position = p + n) : n ≤ data.length ∧ d = ahead (p + n) (data.drop n) ∧
      ∀ more, x (ahead p (data.take n ++ more)) = (.ok a, ahead (p + n) more) := by
  obtain ⟨taken, rest, rfl, htaken⟩ := h p data a d hread
  rw [htaken rest] at hread
  cases hread
  obtain rfl : taken.length = n := Nat.add_left_cancel hposition
  rw [List.take_left, List.drop_left, List.length_append]
  exact ⟨Nat.le_add_right _ _, rfl, htaken⟩

end Takes

theorem takes_pure (a : α) : Takes (pure a : ExceptT ε (StateM ByteCursor) α) := by
  intro p bytes b d h
  cases h
  exact ⟨[], bytes, rfl, fun _ => rfl⟩

theorem takes_error {x : ExceptT ε (StateM ByteCursor) α}
    (h : ∀ c, ∃ e d, x c = (.error e, d)) : Takes x := by
  intro p bytes a d hok
  obtain ⟨e, d', herror⟩ := h (ahead p bytes)
  rw [herror] at hok
  cases hok

theorem takes_bind {x : ExceptT ε (StateM ByteCursor) α}
    {f : α → ExceptT ε (StateM ByteCursor) β} (hx : Takes x) (hf : ∀ a, Takes (f a)) :
    Takes (x >>= f) := by
  intro p bytes b d h
  rw [bind_apply] at h
  rcases hstep : x (ahead p bytes) with ⟨_ | a, c⟩
  · rw [hstep] at h
    cases h
  · rw [hstep] at h
    obtain ⟨taken, rest, rfl, htaken⟩ := hx p bytes a c hstep
    have hc : c = ahead (p + taken.length) rest := congrArg Prod.snd (hstep.symm.trans (htaken rest))
    rw [hc] at h
    obtain ⟨taken', rest', rfl, htaken'⟩ := hf a _ _ b d h
    refine ⟨taken ++ taken', rest', (List.append_assoc _ _ _).symm, ?_⟩
    intro more
    rw [List.append_assoc, bind_of_ok (htaken _), htaken' more, List.length_append, Nat.add_assoc]

theorem Follows.takes {spell : Bytes → α → Prop} {stop : Bytes → Stop → Prop} {x : Read α}
    (h : Follows spell stop x) : Takes x := by
  intro p bytes a d hread
  obtain ⟨taken, rest, hbytes, -, -, hgives⟩ := h.of_ok hread
  exact ⟨taken, rest, hbytes, fun more => hgives p more⟩

theorem takes_bytes (n : ℕ) : Takes (bytes n) := (follows_bytes n).takes

theorem takes_nat (width : ℕ) : Takes (nat width) := (follows_nat width).takes

end Read

/-! ## Rows from the front -/

namespace Row

variable {bytes taken : Bytes} {row : Row} {used : ℕ} {s : Stop}

theorem decode_of_gives (h : Read.Gives Read.row taken row) (rest : Bytes) :
    decode (taken ++ rest) = .ok (row, taken.length) := by
  rw [decode, ByteCursor.ofBytes_eq_ahead, h]
  exact congrArg (fun n => Except.ok (row, n)) (Nat.zero_add _)

theorem decode_of_stops (h : Read.Stops Read.row taken s) {rest : Bytes}
    (hleft : s.Leaves rest.length) :
    decode (taken ++ rest) = .error (s.error taken.length rest.length) := by
  rw [decode, ByteCursor.ofBytes_eq_ahead, h _ _ hleft, Nat.zero_add]

theorem exists_gives_of_decode (h : decode bytes = .ok (row, used)) :
    ∃ taken rest, bytes = taken ++ rest ∧ used = taken.length ∧ taken.SpellRow row ∧
      Read.Gives Read.row taken row := by
  obtain ⟨taken, rest, rfl, ⟨found, hfound, hgives⟩ | ⟨s, -, hleft, hstops⟩⟩ :=
    Read.follows_row bytes
  · rw [decode_of_gives hgives] at h
    cases h
    exact ⟨taken, rest, rfl, rfl, hfound, hgives⟩
  · rw [decode_of_stops hstops hleft] at h
    cases h

/-- A row that is decoded takes as many bytes as it would be stored in. -/
theorem encodedLength_of_decode (h : decode bytes = .ok (row, used)) :
    row.length < 2 ^ 16 ∧ row.encodedLength = used := by
  obtain ⟨taken, rest, -, rfl, hspell, -⟩ := exists_gives_of_decode h
  exact ⟨hspell.1, hspell.length_eq⟩

/-- A row that is decoded from bytes is decoded from them also if more bytes follow. -/
theorem decode_append (h : decode bytes = .ok (row, used)) (more : Bytes) :
    decode (bytes ++ more) = .ok (row, used) ∧ used ≤ bytes.length := by
  obtain ⟨taken, rest, rfl, rfl, -, hgives⟩ := exists_gives_of_decode h
  rw [List.append_assoc, List.length_append]
  exact ⟨decode_of_gives hgives _, Nat.le_add_right _ _⟩

end Row

end BlockQuery
