import BlockQuery.Proofs.Row.Endings

/-!
# Calls on a cursor

A cursor may start anywhere, also beyond the end of its bytes.  Each call gives what the bytes
taken spell, or stops before a piece that is too long or behind one that cannot stand there, and
the cursor stands behind what was taken.  Only a call for no bytes at all, on a cursor that started
beyond the end, cuts outside the bytes.
-/

namespace BlockQuery

open ByteCursor (ahead startAt)

namespace ByteCursor

theorem startAt_eq_ahead {data : Bytes} {p : ℕ} (h : p ≤ data.length) :
    startAt data p = ahead p (data.drop p) := by
  rw [startAt, ahead, List.length_drop, Nat.add_sub_cancel' h]

theorem add_length_le_of_drop {data taken rest : Bytes} {p : ℕ}
    (hdata : data.drop p = taken ++ rest) (h : p ≤ data.length) :
    p + taken.length ≤ data.length := by
  have hlength := congrArg List.length hdata
  rw [List.length_drop, List.length_append] at hlength
  omega

theorem remaining_beyond {data : Bytes} {p : ℕ} (h : data.length < p) :
    (startAt data p).remaining = 0 := Nat.sub_eq_zero_of_le h.le

end ByteCursor

/-! ## Pieces that are asked for first -/

namespace Read

variable {α β : Type}

/-- Whether a read asks for so many bytes before all else. -/
def Asks (n : ℕ) (x : Read α) : Prop :=
  ∀ c, c.remaining < n → x c = (.error (.truncated n c.position c.remaining), c)

theorem asks_bytes (n : ℕ) : Asks n (bytes n) := by
  intro c hshort
  rw [bytes, if_pos hshort]

theorem Asks.bind {n : ℕ} {x : Read α} (hx : Asks n x) (f : α → Read β) : Asks n (x >>= f) := by
  intro c hshort
  rw [bind_apply, hx c hshort]

/-- Beyond the end not even no bytes can be cut out. -/
theorem bytes_zero_beyond {data : Bytes} {p : ℕ} (h : data.length < p) :
    bytes 0 (startAt data p) = (.error (.outOfBounds p data.length), startAt data p) := by
  have hshort : ¬(startAt data p).remaining < 0 := Nat.not_lt_zero _
  have hposition : (startAt data p).size < (startAt data p).position := h
  rw [bytes, if_neg hshort, if_pos hposition]
  rfl

theorem asks_nat (width : ℕ) : Asks width (nat width) := (asks_bytes width).bind _

end Read

/-! ## Calls -/

/-- A call for bytes, for a number of one byte or more, for a text, for a value or for a row. -/
inductive Call where
  | bytes (n : ℕ)
  | number (width : ℕ) (positive : 0 < width)
  | text
  | datum
  | row

namespace Call

/-- What a call gives. -/
def Value : Call → Type
  | bytes _ => Bytes
  | number .. => ℕ
  | text => String
  | datum => Datum
  | row => Row

def read : (call : Call) → Read call.Value
  | bytes n => Read.bytes n
  | number width _ => Read.nat width
  | text => Read.text
  | datum => Read.datum
  | row => Read.row

/-- The length of the piece that a call asks for first. -/
def first : Call → ℕ
  | bytes n => n
  | number width _ => width
  | text => 4
  | datum => 1
  | row => 2

/-- Whether the bytes taken by a call are those of the value that it gives. -/
def Spell : (call : Call) → Bytes → call.Value → Prop
  | bytes n => fun taken bs => taken = bs ∧ bs.length = n
  | number width _ => fun taken n => taken.length = width ∧ taken.toNat = n
  | text => Bytes.SpellText
  | datum => Bytes.SpellDatum
  | row => Bytes.SpellRow

/-- Whether a call may stop behind some bytes. -/
def MayStop : Call → Bytes → Stop → Prop
  | bytes n => fun taken s => taken = [] ∧ s = .short n
  | number width _ => fun taken s => taken = [] ∧ s = .short width
  | text => Bytes.StopText
  | datum => Bytes.StopDatum
  | row => Bytes.StopRow

theorem follows (call : Call) : Read.Follows call.Spell call.MayStop call.read := by
  cases call with
  | bytes n => exact Read.follows_bytes n
  | number width _ => exact Read.follows_nat width
  | text => exact Read.follows_text
  | datum => exact Read.follows_datum
  | row => exact Read.follows_row

theorem asks (call : Call) : Read.Asks call.first call.read := by
  cases call with
  | bytes n => exact Read.asks_bytes n
  | number width _ => exact Read.asks_nat width
  | text => exact (Read.asks_nat 4).bind _
  | datum => exact (Read.asks_nat 1).bind _
  | row => exact (Read.asks_nat 2).bind _

theorem mayStop_first (call : Call) : call.MayStop [] (.short call.first) := by
  cases call with
  | bytes n => exact ⟨rfl, rfl⟩
  | number width _ => exact ⟨rfl, rfl⟩
  | text => exact .length
  | datum => exact .tag
  | row => exact .count

theorem first_pos {call : Call} (h : call ≠ .bytes 0) : 0 < call.first := by
  cases call with
  | bytes n => exact Nat.pos_of_ne_zero fun hn => h (hn ▸ rfl)
  | number width positive => exact positive
  | text => exact Nat.succ_pos 3
  | datum => exact Nat.succ_pos 0
  | row => exact Nat.succ_pos 1

/-- Whether a call at a place of some bytes goes as it should: it gives what the bytes taken spell
or stops where it may, with the error that tells so, and moves the cursor behind these bytes. -/
def Lawful (call : Call) (data : Bytes) (p : ℕ) : Prop :=
  ∃ taken rest, data.drop p = taken ++ rest ∧
    ((∃ a, call.Spell taken a ∧
      call.read (startAt data p) = (.ok a, startAt data (p + taken.length))) ∨
    ∃ s, call.MayStop taken s ∧ s.Leaves rest.length ∧ call.read (startAt data p) =
      (.error (s.error (p + taken.length) rest.length), startAt data (p + taken.length)))

section Lawful

variable {call : Call} {data : Bytes} {p : ℕ}

theorem lawful_within (call : Call) (h : p ≤ data.length) : call.Lawful data p := by
  obtain ⟨taken, rest, hdata, hcases⟩ := call.follows (data.drop p)
  have hlength := ByteCursor.add_length_le_of_drop hdata h
  have hbefore : startAt data p = ahead p (taken ++ rest) := by
    rw [ByteCursor.startAt_eq_ahead h, hdata]
  have hafter : startAt data (p + taken.length) = ahead (p + taken.length) rest := by
    rw [ByteCursor.startAt_eq_ahead hlength, ← List.drop_drop, hdata, List.drop_left]
  refine ⟨taken, rest, hdata, ?_⟩
  rw [hbefore, hafter]
  obtain ⟨a, ha, hgives⟩ | ⟨s, hs, hleft, hstops⟩ := hcases
  · exact Or.inl ⟨a, ha, hgives p rest⟩
  · exact Or.inr ⟨s, hs, hleft, hstops p rest hleft⟩

/-- Beyond the end nothing is taken. -/
theorem Lawful.cursor_beyond (h : call.Lawful data p) (hbeyond : data.length < p) :
    (call.read (startAt data p)).2 = startAt data p := by
  obtain ⟨taken, rest, hdata, hcases⟩ := h
  rw [List.drop_eq_nil_of_le hbeyond.le] at hdata
  obtain ⟨rfl, rfl⟩ := List.append_eq_nil_iff.mp hdata.symm
  obtain ⟨a, -, hread⟩ | ⟨s, -, -, hread⟩ := hcases
  · rw [hread]
    rfl
  · rw [hread]
    rfl

theorem lawful_beyond (h : data.length < p) (hfirst : call ≠ .bytes 0) : call.Lawful data p := by
  have hremaining := ByteCursor.remaining_beyond h
  have hread := call.asks (startAt data p) (hremaining ▸ first_pos hfirst)
  rw [hremaining] at hread
  refine ⟨[], [], List.drop_eq_nil_of_le h.le, Or.inr ⟨_, call.mayStop_first, ?_, hread⟩⟩
  exact first_pos hfirst

theorem read_bytes_zero_beyond (h : data.length < p) : (bytes 0).read (startAt data p) =
    (.error (.outOfBounds p data.length), startAt data p) := Read.bytes_zero_beyond h

theorem lawful_beyond_iff (h : data.length < p) : call.Lawful data p ↔ call ≠ .bytes 0 := by
  constructor
  · rintro ⟨taken, rest, -, ⟨a, -, hread⟩ | ⟨s, -, -, hread⟩⟩ rfl
    · rw [read_bytes_zero_beyond h] at hread
      cases hread
    · rw [read_bytes_zero_beyond h] at hread
      cases s <;> cases hread
  · exact lawful_beyond h

theorem cursor_beyond (call : Call) (h : data.length < p) :
    (call.read (startAt data p)).2 = startAt data p := by
  by_cases hfirst : call = .bytes 0
  · rw [hfirst, read_bytes_zero_beyond h]
  · exact (lawful_beyond h hfirst).cursor_beyond h

end Lawful

/-! ## Calls one after the other -/

/-- Calls one after the other, each with the cursor that it finds. -/
def steps : List Call → ByteCursor → List (Call × ByteCursor)
  | [], _ => []
  | call :: calls, c => (call, c) :: steps calls (call.read c).2

/-- Whether a step of a run goes as it should, and no further than where the bytes end or, if that
is beyond, the run began. -/
def LawfulStep (data : Bytes) (start : ℕ) (step : Call × ByteCursor) : Prop :=
  ∃ p, step.2 = startAt data p ∧ step.1.Lawful data p ∧
    (step.1.read step.2).2.position ≤ max start data.length

section Steps

variable {data : Bytes} {p start : ℕ}

/-- Within the bytes a call leads to a place within them. -/
theorem exists_cursor_within (call : Call) (h : p ≤ data.length) :
    ∃ q ≤ data.length, (call.read (startAt data p)).2 = startAt data q := by
  obtain ⟨taken, rest, hdata, hcases⟩ := call.lawful_within h
  refine ⟨p + taken.length, ByteCursor.add_length_le_of_drop hdata h, ?_⟩
  obtain ⟨a, -, hread⟩ | ⟨s, -, -, hread⟩ := hcases
  · rw [hread]
  · rw [hread]

theorem lawfulStep_within (h : p ≤ data.length) (start : ℕ) (calls : List Call) :
    ∀ step ∈ steps calls (startAt data p), LawfulStep data start step := by
  induction calls generalizing p with
  | nil => exact fun step hstep => absurd hstep List.not_mem_nil
  | cons call calls ih =>
    obtain ⟨q, hq, hafter⟩ := call.exists_cursor_within h
    rw [steps, hafter, List.forall_mem_cons]
    refine ⟨⟨p, rfl, call.lawful_within h, ?_⟩, ih hq⟩
    rw [hafter]
    exact hq.trans (Nat.le_max_right start _)

theorem steps_beyond (h : data.length < p) (calls : List Call) :
    steps calls (startAt data p) = calls.map fun call => (call, startAt data p) := by
  induction calls with
  | nil => rfl
  | cons call calls ih => rw [steps, call.cursor_beyond h, ih, List.map_cons]

theorem lawfulStep_beyond_iff (h : data.length < start) (call : Call) :
    LawfulStep data start (call, startAt data start) ↔ call ≠ .bytes 0 := by
  constructor
  · rintro ⟨p, hp, hlawful, -⟩
    obtain rfl : start = p := congrArg ByteCursor.position hp
    exact (lawful_beyond_iff h).mp hlawful
  · intro hfirst
    refine ⟨start, rfl, lawful_beyond h hfirst, ?_⟩
    rw [call.cursor_beyond h]
    exact Nat.le_max_left _ _

end Steps

/-- From any start all calls go as they should, whatever failed before, just if none asks for no
bytes beyond the end. -/
theorem lawful_steps_iff (data : Bytes) (start : ℕ) (calls : List Call) :
    (∀ step ∈ steps calls (startAt data start), LawfulStep data start step) ↔
      (data.length < start → .bytes 0 ∉ calls) := by
  by_cases hbeyond : data.length < start
  · rw [steps_beyond hbeyond, List.forall_mem_map]
    simp only [lawfulStep_beyond_iff hbeyond]
    constructor
    · intro h _ hmem
      exact h _ hmem rfl
    · intro h call hmem hcall
      exact h hbeyond (hcall ▸ hmem)
  · have hwithin := lawfulStep_within (Nat.not_lt.mp hbeyond) start calls
    exact iff_of_true hwithin fun h => absurd h hbeyond

/-- No bytes are asked for one place beyond the end, and the call cuts there. -/
theorem not_lawful_beyond : (bytes 0).read (startAt [1, 2] 3) =
      (.error (.outOfBounds 3 2), startAt [1, 2] 3) ∧
    ¬∀ step ∈ steps [.bytes 0] (startAt [1, 2] 3), LawfulStep [1, 2] 3 step := by
  have hbeyond : ([1, 2] : Bytes).length < 3 := by decide
  refine ⟨read_bytes_zero_beyond hbeyond, fun h => ?_⟩
  have hstep := h (.bytes 0, startAt [1, 2] 3) List.mem_cons_self
  exact (lawfulStep_beyond_iff hbeyond _).mp hstep rfl

end Call
end BlockQuery
