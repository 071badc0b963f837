import BlockQuery.RowFile.Error

/-!
# Appending to row files

An appender starts a row file anew and adds records to it.  Records wait in a
buffer and reach the file when the buffer would overflow, on `flush`, and on
`close`.
-/

namespace BlockQuery

structure RowAppender where
  path : String
  file : OpenFile
  /-- The bytes that have not reached the file. -/
  pending : Bytes
  /-- The number of bytes that have. -/
  flushed : Nat
  /-- Where the next record starts. -/
  offset : Nat
  rows : Nat
deriving Repr

namespace RowAppender

/-- The most bytes that wait in the buffer. -/
def capacity : Nat := 8192

/-- The directory of a new file made where it is missing. -/
def prepareDirectory (disk : Disk) (path : String) : Except StorageError Unit × Disk :=
  match Path.parent? path with
  | none => (.ok (), disk)
  | some parent =>
    if parent.isEmpty || disk.pathExists parent then (.ok (), disk)
    else
      let (made, disk) := disk.createDirectories parent
      (made.mapError (.io ("Failed to create directory: " ++ parent)), disk)

/-- An appender to a new, empty file. -/
def create (disk : Disk) (path : String) : Except StorageError RowAppender × Disk :=
  match prepareDirectory disk path with
  | (.error e, disk) => (.error e, disk)
  | (.ok _, disk) =>
    match disk.create path with
    | .error e => (.error (.io ("Failed to create data file: " ++ path) e), disk)
    | .ok (file, disk) => (.ok ⟨path, file, [], 0, 0, 0⟩, disk)

/-- Bytes written to the file behind those that are there already. -/
def emit (disk : Disk) (appender : RowAppender) (bytes : Bytes) : Disk :=
  disk.writeAt appender.file appender.flushed bytes

/-- All waiting bytes brought to the file. -/
def flush (appender : RowAppender) (disk : Disk) : RowAppender × Disk :=
  ({ appender with pending := [], flushed := appender.flushed + appender.pending.length },
    emit disk appender appender.pending)

/-- Bytes put into the buffer, or past it when they are too many. -/
def buffer (appender : RowAppender) (disk : Disk) (bytes : Bytes) : RowAppender × Disk :=
  let (appender, disk) :=
    if capacity < appender.pending.length + bytes.length then appender.flush disk
    else (appender, disk)
  if capacity ≤ bytes.length then
    ({ appender with flushed := appender.flushed + bytes.length }, emit disk appender bytes)
  else ({ appender with pending := appender.pending ++ bytes }, disk)

/-- One more row; its record starts at the appender's old offset. -/
def append (appender : RowAppender) (disk : Disk) (row : Row) : RowAppender × Disk :=
  let bytes := Record.encode row
  let (appender, disk) := appender.buffer disk bytes
  ({ appender with offset := appender.offset + bytes.length, rows := appender.rows + 1 }, disk)

def appendAll (appender : RowAppender) (disk : Disk) : List Row → RowAppender × Disk
  | [] => (appender, disk)
  | row :: rows =>
    let (appender, disk) := appender.append disk row
    appendAll appender disk rows

/-- The file's size, with all rows in the file. -/
def close (appender : RowAppender) (disk : Disk) : Nat × Disk :=
  (appender.offset, (appender.flush disk).2)

end RowAppender

/-- Makes a file of the given rows, and tells its size. -/
def Disk.storeRows (disk : Disk) (path : String) (rows : List Row) :
    Except StorageError Nat × Disk :=
  match RowAppender.create disk path with
  | (.error e, disk) => (.error e, disk)
  | (.ok appender, disk) =>
    let (appender, disk) := appender.appendAll disk rows
    let (size, disk) := appender.close disk
    (.ok size, disk)

end BlockQuery
