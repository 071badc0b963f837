import BlockQuery.RowFile.Error

/-!
# Reading row files

A reader keeps the offset of the next record and the position of its stream.
They part when a record fails after some of it was read: the stream has moved
and the offset has not.
-/

namespace BlockQuery

/-- A named piece of a table or of an intermediate result. -/
structure Fragment where
  name : String
  path : String
deriving DecidableEq, Repr, Inhabited

structure RowReader where
  path : String
  /-- The content of the file; a directory cannot be read. -/
  source : Except IoError Bytes
  size : Nat
  /-- Where the next record is expected. -/
  offset : Nat
  /-- Where the stream stands. -/
  stream : Nat
  /-- What lies before the stream. -/
  rest : Bytes

namespace RowReader

/-- The size that a directory shows. -/
def directorySize : Nat := 4096

/-- The greatest position that a stream can be set to. -/
def maxPosition : Nat := 9223372036854775807

def ofContent (path : String) (content : Bytes) : RowReader :=
  ⟨path, .ok content, content.length, 0, 0, content⟩

def open? (disk : Disk) (path : String) : Except StorageError RowReader :=
  match disk.openEntry path with
  | .error e => .error (.io ("Failed to open data file: " ++ path) e)
  | .ok (.file _ content) => .ok (ofContent path content)
  | .ok .directory => .ok ⟨path, .error .isDirectory, directorySize, 0, 0, []⟩

def hasMore (r : RowReader) : Bool := decide (r.offset < r.size)

/-- Exactly `n` bytes of the stream; when there are fewer the stream moves to its end. -/
def take (r : RowReader) (n : Nat) : Except IoError Bytes × RowReader :=
  match r.source with
  | .error e => (.error e, r)
  | .ok _ =>
    if r.size < r.stream + n then
      (.error .endOfFile, { r with stream := max r.stream r.size, rest := [] })
    else (.ok (r.rest.take n), { r with stream := r.stream + n, rest := r.rest.drop n })

/-- The body of a record whose length field was read. -/
def readBody (r : RowReader) (lengthField : Bytes) (length : Nat) :
    Except StorageError (Option Row) × RowReader :=
  match r.take (length - 4) with
  | (.error e, r) =>
    (.error (.io s!"Failed to read record body at offset {r.offset}" e), r)
  | (.ok body, r) =>
    match Record.decode (lengthField ++ body) with
    | .error e => (.error (.corruption r.offset (.record e)), r)
    | .ok (row, used) => (.ok (some row), { r with offset := r.offset + used })

/-- The next row, or nothing at the end of the file. -/
def next (r : RowReader) : Except StorageError (Option Row) × RowReader :=
  if r.size ≤ r.offset then (.ok none, r)
  else
    let remaining := r.size - r.offset
    if remaining < Record.minLength then (.error (.corruption r.offset (.tail remaining)), r)
    else
      match r.take 4 with
      | (.error e, r) =>
        (.error (.io s!"Failed to read record length at offset {r.offset}" e), r)
      | (.ok field, r) =>
        let length := field.toNat
        if length < Record.minLength || remaining < length then
          (.error (.corruption r.offset (.badLength length remaining)), r)
        else r.readBody field length

/-- A measure of the rows that may still come: each takes up part of the file. -/
def left (r : RowReader) : Nat := r.size - r.offset

theorem take_fst {r : RowReader} {n : Nat} : ((r.take n).2).size = r.size ∧
    ((r.take n).2).offset = r.offset := by
  unfold take
  split
  · simp
  · split <;> simp

/-- A row that was read leaves less of the file. -/
theorem left_lt_of_next {r r' : RowReader} {row : Row} (h : r.next = (.ok (some row), r')) :
    r'.left < r.left := by
  unfold next at h
  split at h
  · simp at h
  next hsize =>
    simp only at h
    split at h
    · simp at h
    · split at h
      · simp at h
      next field r₁ htake =>
        split at h
        · simp at h
        · unfold readBody at h
          split at h
          · simp at h
          next body r₂ hbody =>
            split at h
            · simp at h
            next row' used hdecode =>
              have h₁ := @take_fst r 4
              rw [htake] at h₁
              have h₂ := @take_fst r₁ (field.toNat - 4)
              rw [hbody] at h₂
              have hmin := Record.decode_length hdecode
              simp only [Prod.mk.injEq, Except.ok.injEq, Option.some.injEq] at h
              obtain ⟨-, rfl⟩ := h
              simp only [left, Record.minLength] at *
              omega

/-- All rows to the end of the file, after the ones already read in reverse. -/
def readAll (r : RowReader) (done : List Row) : Except StorageError (List Row) × RowReader :=
  match _h : r.next with
  | (.error e, r') => (.error e, r')
  | (.ok none, r') => (.ok done.reverse, r')
  | (.ok (some row), r') => readAll r' (row :: done)
termination_by r.left
decreasing_by exact left_lt_of_next _h

/-- All rows to the end of the file with the offsets of their records, after
those already read in reverse. -/
def located (r : RowReader) (done : List (Row × Nat)) :
    Except StorageError (List (Row × Nat)) :=
  match _h : r.next with
  | (.error e, _) => .error e
  | (.ok none, _) => .ok done.reverse
  | (.ok (some row), r') => located r' ((row, r.offset) :: done)
termination_by r.left
decreasing_by exact left_lt_of_next _h

/-- The stream and the offset set to a place in the file, or beyond it. -/
def seek (r : RowReader) (offset : Nat) : Except StorageError RowReader :=
  if maxPosition < offset then
    .error (.io s!"Failed to seek to offset {offset}" .invalidArgument)
  else
    let content := match r.source with
      | .ok content => content
      | .error _ => []
    .ok { r with offset := offset, stream := offset, rest := content.drop offset }

/-- The row whose record starts at an offset. -/
def readAt (r : RowReader) (offset : Nat) : Except StorageError Row × RowReader :=
  match r.seek offset with
  | .error e => (.error e, r)
  | .ok r =>
    match r.next with
    | (.error e, r) => (.error e, r)
    | (.ok (some row), r) => (.ok row, r)
    | (.ok none, r) => (.error (.corruption offset .noRecord), r)

end RowReader

/-- The rows of the file that a path names. -/
def Disk.readRows (disk : Disk) (path : String) : Except StorageError (List Row) := do
  ((← RowReader.open? disk path).readAll []).1

/-- The values of one column of a file with the places of their rows. -/
def Disk.readColumn (disk : Disk) (path : String) (position : Nat) :
    Except StorageError (List (Row × Nat)) := do
  let rows ← (← RowReader.open? disk path).located []
  return rows.map fun (row, offset) => (row.select [position], offset)

end BlockQuery
