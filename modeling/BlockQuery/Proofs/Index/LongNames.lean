import BlockQuery.Proofs.Index.Building

/-!
# Long column names

A reader refuses column names beyond a limit that a writer does not check.  The
length of a name that is longer still does not fit its field; then the reader
takes less for the header than was written, and the length of the file is wrong.
-/

namespace BlockQuery

open BlockQuery.ByteCursor (ahead)
open BlockQuery.Read (bind_apply bind_of_ok)

namespace Read

theorem bind_eq_ok {ε α β : Type} {x : ExceptT ε (StateM ByteCursor) α}
    {f : α → ExceptT ε (StateM ByteCursor) β} {c e : ByteCursor} {b : β}
    (h : (x >>= f) c = (.ok b, e)) : ∃ a d, x c = (.ok a, d) ∧ f a d = (.ok b, e) := by
  rw [bind_apply] at h
  rcases hx : x c with ⟨_ | a, d⟩
  · rw [hx] at h
    cases h
  · rw [hx] at h
    exact ⟨a, d, rfl, h⟩

end Read

namespace Index

namespace Header

open BlockQuery.Read (bind_eq_ok)

/-! ## How far reading moves -/

/-- Whether a step of reading moves ahead by a number of bytes at most. -/
def Moves {α : Type} (x : Header.Read α) (n : ℕ) : Prop :=
  ∀ c a d, x c = (.ok a, d) → d.position ≤ c.position + n

section Moves

variable {α β : Type} {x : Header.Read α} {m n : ℕ}

theorem moves_pure (a : α) (n : ℕ) : Moves (pure a) n := by
  intro c b d h
  cases h
  exact Nat.le_add_right _ _

theorem moves_fail (e : Error) (n : ℕ) : Moves (fail e : Header.Read α) n := by
  intro c a d h
  cases h

theorem moves_position (n : ℕ) : Moves position n := by
  intro c a d h
  cases h
  exact Nat.le_add_right _ _

theorem moves_bind {f : α → Header.Read β} (hx : Moves x m) (hf : ∀ a, Moves (f a) n) :
    Moves (x >>= f) (m + n) := by
  intro c b e h
  obtain ⟨a, d, ha, hb⟩ := bind_eq_ok h
  have hfirst := hx c a d ha
  have hrest := hf a d b e hb
  omega

theorem bytes_eq_ok {c d : ByteCursor} {bytes : Bytes}
    (h : sized (BlockQuery.Read.bytes n) c = (.ok bytes, d)) :
    n ≤ c.remaining ∧ d.position = c.position + n ∧ bytes = c.rest.take n := by
  rw [sized, BlockQuery.Read.bytes] at h
  by_cases hshort : c.remaining < n
  · rw [if_pos hshort] at h
    cases h
  · rw [if_neg hshort] at h
    by_cases hend : c.size < c.position
    · rw [if_pos hend] at h
      cases h
    · rw [if_neg hend] at h
      cases h
      exact ⟨Nat.le_of_not_lt hshort, rfl, rfl⟩

theorem moves_bytes (n : ℕ) : Moves (sized (BlockQuery.Read.bytes n)) n :=
  fun _ _ _ h => (bytes_eq_ok h).2.1.le

theorem nat_eq_ok {width k : ℕ} {c d : ByteCursor} (h : nat width c = (.ok k, d)) :
    width ≤ c.remaining ∧ d.position = c.position + width ∧
      k = Bytes.toNat (c.rest.take width) := by
  rw [nat, sized, BlockQuery.Read.nat, bind_apply] at h
  rcases hbytes : BlockQuery.Read.bytes width c with ⟨_ | bytes, d'⟩
  · rw [hbytes] at h
    cases h
  · obtain ⟨hroom, hposition, rfl⟩ := bytes_eq_ok (sized_of_ok hbytes)
    rw [hbytes] at h
    cases h
    exact ⟨hroom, hposition, rfl⟩

/-- A number of some bytes is as small as they allow. -/
theorem nat_lt {width k : ℕ} {c d : ByteCursor} (h : nat width c = (.ok k, d)) :
    k < 256 ^ width := by
  obtain ⟨-, -, rfl⟩ := nat_eq_ok h
  apply (Bytes.toNat_lt _).trans_le
  exact Nat.pow_le_pow_right (by decide) (List.length_take_le _ _)

theorem moves_nat (width : ℕ) : Moves (nat width) width :=
  fun _ _ _ h => (nat_eq_ok h).2.1.le

theorem moves_name : Moves name (4 + maxNameLength) := by
  rw [← Nat.zero_add (4 + maxNameLength)]
  refine moves_bind (moves_position 0) fun start => moves_bind (moves_nat 4) fun length => ?_
  split
  next => exact moves_fail _ _
  next hlength =>
    have hbytes : Moves (sized (BlockQuery.Read.bytes length)) maxNameLength := by
      intro c a d h
      have hmoves := moves_bytes length c a d h
      omega
    refine moves_bind (n := 0) hbytes fun bytes => ?_
    split
    · exact moves_pure _ _
    · exact moves_fail _ _

theorem moves_column : Moves column (4 + maxNameLength + 1) := by
  refine moves_bind moves_name fun name => ?_
  refine moves_bind (n := 0) (moves_nat 1) fun tag => ?_
  split
  · exact moves_pure _ _
  · refine moves_bind (n := 0) (moves_position 0) fun after => ?_
    exact moves_fail _ _

theorem moves_spec (schema : Schema) : Moves (spec schema) 4 := by
  refine moves_bind (n := 2) (moves_nat 2) fun i => ?_
  refine moves_bind (n := 1) (moves_nat 1) fun ascending => ?_
  refine moves_bind (n := 0) (moves_nat 1) fun nullsFirst => ?_
  split
  · exact moves_pure _ _
  · exact moves_fail _ _

theorem moves_many (hx : Moves x m) (n : ℕ) (done : List α) : Moves (many x n done) (n * m) := by
  induction n generalizing done with
  | zero => exact moves_pure _ _
  | succ n ih =>
    have hstep := moves_bind hx fun a => ih (a :: done)
    rwa [Nat.add_comm, ← Nat.succ_mul] at hstep

end Moves

/-! ## Names beyond the limit -/

section LongName

variable {h : Header} {c : Column}

/-- What is left to read of a header after its lengths and the number of its columns. -/
def rest (h : Header) (columns : ℕ) : Header.Read Header := do
  let schema ← many column columns []
  let count ← nat 2
  let specs ← many (spec schema) count []
  return { h with schema := schema, specs := specs }

theorem fields_eq_rest (hsized : h.Sized) (hcolumns : h.schema.length < 2 ^ 16) (ys : Bytes) :
    fields (ahead 0 (h.body ++ ys)) = rest h h.schema.length (ahead 44
      (h.schema.flatMap encodeColumn ++ (Bytes.ofNat 2 h.specs.length ++
        (h.specs.flatMap (specBytes h.schema) ++ ys)))) := by
  have hmagic := fun ys => sized_of_ok (BlockQuery.Read.bytes_ahead (show magic.length = 4 from rfl) 0 ys)
  have hversion : formatVersion < 256 ^ 2 := by decide
  rw [fields, body, fixedFields]
  simp only [List.append_assoc]
  rw [bind_of_ok (hmagic _), if_neg (not_not_intro rfl), bind_of_ok (nat_ahead hversion _ _),
    if_neg (not_not_intro rfl), bind_of_ok (nat_ahead hsized.loadFactor _ _),
    bind_of_ok (nat_ahead hsized.entryCount _ _), bind_of_ok (nat_ahead hsized.topCount _ _),
    bind_of_ok (nat_ahead hsized.topLength _ _), bind_of_ok (nat_ahead hsized.bottomLength _ _),
    bind_of_ok (nat_ahead hcolumns _ _)]
  rfl

/-- With one column the rest of a header is short. -/
theorem moves_rest (h : Header) {d e : ByteCursor} {found : Header}
    (hread : rest h 1 d = (.ok found, e)) :
    e.position ≤ d.position + 400000 ∧ found.topLength = h.topLength ∧
      found.bottomLength = h.bottomLength := by
  obtain ⟨schema, d₁, hschema, hread⟩ := bind_eq_ok hread
  obtain ⟨count, d₂, hcount, hread⟩ := bind_eq_ok hread
  obtain ⟨specs, d₃, hspecs, hread⟩ := bind_eq_ok hread
  cases hread
  have hcolumn := moves_many moves_column 1 [] d schema d₁ hschema
  have hnat := moves_nat 2 _ _ _ hcount
  have hlt := nat_lt hcount
  have hspec := moves_many (moves_spec schema) count [] d₂ specs e hspecs
  have hlimit : maxNameLength = 65536 := rfl
  refine ⟨?_, rfl, rfl⟩
  omega

theorem column_of_longField (hlong : maxNameLength < (Bytes.ofText c.name).length % 2 ^ 32) (p : ℕ)
    (ys : Bytes) : ∃ e d, column (ahead p (encodeColumn c ++ ys)) = (.error e, d) := by
  have hfield := sized_of_ok (BlockQuery.Read.nat_ahead 4 (Bytes.ofText c.name).length p
    (Bytes.ofText c.name ++ ([c.type.tag] ++ ys)))
  have hname : name (ahead p (encodeColumn c ++ ys)) =
      (.error (.corruption (some p) (.longName ((Bytes.ofText c.name).length % 2 ^ 32))),
        ahead (p + 4) (Bytes.ofText c.name ++ ([c.type.tag] ++ ys))) := by
    rw [name, encodeColumn, Bytes.ofSizedText, List.append_assoc, List.append_assoc,
      bind_of_ok (position_ahead p _), nat, bind_of_ok hfield]
    exact congrFun (if_pos hlong) _
  rw [column, bind_apply, hname]
  exact ⟨_, _, rfl⟩

theorem decode_eq_ok {data : Bytes} {found : Header} {n : ℕ}
    (hdecode : decode data = .ok (found, n)) :
    ∃ d, fields (ahead 0 data) = (.ok found, d) ∧ n ≤ d.position + 4 := by
  rw [decode, ByteCursor.ofBytes_eq_ahead] at hdecode
  split at hdecode
  next => cases hdecode
  next found' d hread =>
    dsimp only at hdecode
    split at hdecode
    next => cases hdecode
    next stored after hstored =>
      split at hdecode
      next => cases hdecode
      next =>
        cases hcheck : found'.check with
        | error e =>
          rw [hcheck] at hdecode
          cases hdecode
        | ok u =>
          rw [hcheck] at hdecode
          cases hdecode
          exact ⟨d, hread, moves_nat 4 _ _ _ hstored⟩

theorem length_name_le (hschema : h.schema = [c]) :
    (Bytes.ofText c.name).length ≤ h.bytes.length := by
  rw [length_bytes, body, hschema]
  simp only [List.length_append, List.flatMap_singleton, encodeColumn, Bytes.ofSizedText]
  omega

/-- Of a header with a name beyond the limit less is read than was written, if it is read. -/
theorem decode_of_longName (hsized : h.Sized) (hschema : h.schema = [c])
    (hlong : maxNameLength < (Bytes.ofText c.name).length) {ys : Bytes} {found : Header} {n : ℕ}
    (hdecode : decode (h.bytes ++ ys) = .ok (found, n)) :
    n < h.bytes.length ∧ found.topLength = h.topLength ∧ found.bottomLength = h.bottomLength := by
  obtain ⟨d, hread, hn⟩ := decode_eq_ok hdecode
  have hone : h.schema.length = 1 := congrArg List.length hschema
  have hcolumns : h.schema.flatMap encodeColumn = encodeColumn c := by
    rw [hschema, List.flatMap_singleton]
  have hcount : h.schema.length < 2 ^ 16 := hone.trans_lt (by decide)
  rw [bytes, List.append_assoc, fields_eq_rest hsized hcount, hone, hcolumns] at hread
  by_cases hfield : maxNameLength < (Bytes.ofText c.name).length % 2 ^ 32
  · obtain ⟨columns, d₁, hmany, -⟩ := bind_eq_ok hread
    obtain ⟨column, d₂, hcolumn, -⟩ := bind_eq_ok hmany
    obtain ⟨e, d', herror⟩ := column_of_longField hfield 44 (Bytes.ofNat 2 h.specs.length ++
      (h.specs.flatMap (specBytes h.schema) ++ (Bytes.ofUInt32 (checksum h.body) ++ ys)))
    rw [herror] at hcolumn
    cases hcolumn
  · obtain ⟨hposition, htop, hbottom⟩ := moves_rest h hread
    have hname := length_name_le hschema
    have hstart : d.position ≤ 44 + 400000 := hposition
    have hlimit : maxNameLength = 65536 := rfl
    refine ⟨?_, htop, hbottom⟩
    omega

end LongName

end Header

/-! ## Files with such names -/

/-- The length of a file that opens is the one that its header tells. -/
theorem length_of_ofContent {path : String} {content : Bytes} {r : Reader}
    (h : Reader.ofContent path content = .ok r) :
    ∃ found n, Header.decode content = .ok (found, n) ∧
      content.length = n + found.topLength + 4 + found.bottomLength + 4 := by
  rw [Reader.ofContent] at h
  split at h
  next => cases h
  next found n hdecode =>
    split at h
    next => cases h
    next expected hexpected =>
      dsimp only at h
      split at h
      next => cases h
      next hlength =>
        exact ⟨found, n, hdecode, (not_not.mp hlength).trans (fileLength?_eq_some hexpected)⟩

/-- An index of one column that opens has a column name within the limit. -/
theorem Filled.name_le_of_open? {disk made sealed : Disk} {path : String} {c : Column}
    {specs : List SortSpec} {loadFactor : ℕ} {entries : List (Row × ℕ)} {summary : Summary}
    {w : Writer} {r : Reader} (h : Filled disk path [c] specs loadFactor entries w made)
    (hsized : w.Sized) (hclose : w.close made = .ok (summary, sealed))
    (hopen : Reader.open? sealed path = .ok r) :
    (Bytes.ofText c.name).length ≤ maxNameLength := by
  by_contra hlong
  rw [h.open?_close hclose] at hopen
  obtain ⟨found, n, hdecode, hlength⟩ := length_of_ofContent hopen
  rw [Writer.content, List.append_assoc] at hdecode
  obtain ⟨hn, htop, hbottom⟩ := Header.decode_of_longName (h.holds.sized_header hsized)
    h.schema_eq (Nat.lt_of_not_le hlong) hdecode
  rw [Writer.Holds.length_content, htop, hbottom] at hlength
  omega

end Index

end BlockQuery
