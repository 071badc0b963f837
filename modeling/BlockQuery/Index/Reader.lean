import BlockQuery.Index.Header
import BlockQuery.Row.Codec

/-!
# Reading indexes

Opening an index checks its header, the lengths and the checksums, and decodes
the top level.  A key is looked for in two steps: the top level gives the last
block that can hold it, and that block the place in it.

Both steps search by halving.  The search asks a predicate that holds for a
first part of the entries; on entries out of order it still gives one of the
places where the predicate changes.
-/

namespace BlockQuery.Index

/-! ## Search by halving -/

/-- The start of the last single entry left when `size` entries from `base` on
are halved, keeping the upper half when the predicate holds at its start. -/
def narrow {α : Type} (before : α → Bool) (xs : List α) (base size : Nat) : Nat :=
  if _h : size ≤ 1 then base
  else
    let half := size / 2
    narrow before xs (if xs[base + half]?.any before then base + half else base) (size - half)
termination_by size
decreasing_by omega

/-- The number of entries before the point where the predicate stops to hold. -/
def partitionPoint {α : Type} (before : α → Bool) (xs : List α) : Nat :=
  if xs.isEmpty then 0
  else
    let base := narrow before xs 0 xs.length
    if xs[base]?.any before then base + 1 else base

/-! ## Opening -/

/-- The first key of a block and the place of the block in the bottom level. -/
structure TopEntry where
  key : Row
  offset : Nat
deriving DecidableEq, Repr

structure BottomEntry where
  key : Row
  offset : Nat
deriving DecidableEq, Repr

structure Reader where
  path : String
  header : Header
  order : RowOrder
  top : List TopEntry
  /-- Where the bottom level starts in the file. -/
  bottomStart : Nat
  bottom : Bytes
deriving Repr

/-- A key and a number after it; a decoding error is one of the level and offset. -/
def readEntry (level : String) (at_ : Nat) (c : ByteCursor) :
    Except Error (Row × Nat × ByteCursor) :=
  match BlockQuery.Read.row c with
  | (.error e, _) => .error (.corruption (some at_) (.entry level e))
  | (.ok key, c) =>
    match BlockQuery.Read.nat 8 c with
    | (.error e, _) => .error (.corruption (some at_) (.entry level e))
    | (.ok n, c) => .ok (key, n, c)

/-- What a top entry has to satisfy beside the one before it. -/
def checkTop (h : Header) (order : RowOrder) (i : Nat) (last? : Option TopEntry) (e : TopEntry) :
    Option Damage :=
  if e.key.length ≠ h.schema.length then some .topKeyWidth
  else if h.bottomLength ≤ e.offset then some (.topOutside i e.offset h.bottomLength)
  else
    match last? with
    | none => if e.offset ≠ 0 then some .firstBlock else none
    | some last =>
      if e.offset ≤ last.offset then some (.topNotIncreasing i e.offset)
      else if order.compare last.key e.key == .gt then some (.topOutOfOrder i)
      else none

/-- So many top entries, after the ones already read in reverse. -/
def decodeTop (h : Header) (order : RowOrder) (start : Nat) :
    Nat → List TopEntry → ByteCursor → Except Error (List TopEntry)
  | 0, done, c =>
    if c.remaining ≠ 0 then .error (.corruption (some start) (.topTrailing c.remaining))
    else .ok done.reverse
  | n + 1, done, c =>
    match readEntry "top" (start + c.position) c with
    | .error e => .error e
    | .ok (key, offset, after) =>
      match checkTop h order (h.topCount - (n + 1)) done.head? ⟨key, offset⟩ with
      | some damage => .error (.corruption (some (start + c.position)) damage)
      | none => decodeTop h order start n (⟨key, offset⟩ :: done) after

/-- The most entries of 32 bytes that can be addressed with signed 64-bit words. -/
def maxTopCount : Nat := 288230376151711743

/-- The top level of a section.  Room for all entries that the header tells of is asked for before
any is read; that many do fit only if they were in the section, which is in memory already. -/
def readTop (h : Header) (order : RowOrder) (start : Nat) (content : Bytes) :
    Except Error (List TopEntry) :=
  if maxTopCount < h.topCount && content.length < h.topCount then .error .capacity
  else decodeTop h order start h.topCount [] (.ofBytes content)

/-- Whether a section is followed by its checksum. -/
def checkSection (content stored : Bytes) : Bool := (checksum content).toNat == Bytes.toNat stored

namespace Reader

/-- The reader of an index file with the given content. -/
def ofContent (path : String) (content : Bytes) : Except Error Reader :=
  match Header.decode content with
  | .error e => .error e
  | .ok (h, headerLength) =>
    match h.fileLength? headerLength with
    | none => .error .overflow
    | some expected =>
      let size := content.length
      if size ≠ expected then .error (.corruption none (.fileLength size expected))
      else
        match RowOrder.ofSpecs h.schema h.specs with
        | .error e => .error (.corruption none (.unresolvedSpecs e))
        | .ok order =>
          let sections := content.drop headerLength
          let top := sections.take h.topLength
          let afterTop := sections.drop h.topLength
          if !checkSection top (afterTop.take 4) then
            .error (.corruption (some headerLength) (.sectionChecksum "Top level"))
          else
            match readTop h order headerLength top with
            | .error e => .error e
            | .ok entries =>
              let bottomStart := headerLength + h.topLength + 4
              let bottom := (afterTop.drop 4).take h.bottomLength
              if !checkSection bottom (((afterTop.drop 4).drop h.bottomLength).take 4) then
                .error (.corruption (some bottomStart) (.sectionChecksum "Bottom level"))
              else .ok ⟨path, h, order, entries, bottomStart, bottom⟩

def open? (disk : Disk) (path : String) : Except Error Reader :=
  match disk.openEntry path with
  | .error e => .error (.io ("Failed to open index file: " ++ path) e)
  | .ok .directory => .error (.io "Failed to read index header" .isDirectory)
  | .ok (.file _ content) => ofContent path content

def entryCount (r : Reader) : Nat := r.header.entryCount

/-! ## Lookups -/

/-- So many entries of a block, after the ones already read in reverse. -/
def decodeBlock (r : Reader) (block at_ : Nat) :
    Nat → List BottomEntry → ByteCursor → Except Error (List BottomEntry)
  | 0, done, c =>
    if c.remaining ≠ 0 then .error (.corruption (some at_) (.blockTrailing block c.remaining))
    else .ok done.reverse
  | n + 1, done, c =>
    match readEntry "bottom" at_ c with
    | .error e => .error e
    | .ok (key, offset, c) =>
      if key.length ≠ r.header.schema.length then .error (.corruption (some at_) .bottomKeyWidth)
      else decodeBlock r block at_ n (⟨key, offset⟩ :: done) c

/-- Where a block starts and ends in the bottom level. -/
def blockSpan? (r : Reader) (block : Nat) : Option (Nat × Nat) :=
  r.top[block]?.map fun e =>
    (e.offset, (r.top[block + 1]?.map (·.offset)).getD r.header.bottomLength)

def readBlock (r : Reader) (block : Nat) : Except Error (List BottomEntry) :=
  match r.blockSpan? block with
  | none => .error (.corruption none (.blockMissing block))
  | some (start, stop) =>
    let expected := min r.header.loadFactor (r.entryCount - block * r.header.loadFactor)
    decodeBlock r block (r.bottomStart + start) expected []
      (.ofBytes ((r.bottom.drop start).take (stop - start)))

def checkKey (r : Reader) (key : Row) : Except Error Unit :=
  if key.length ≠ r.header.schema.length then
    .error (.invalidKey (.lookupWidth key.length r.header.schema))
  else .ok ()

/-- Whether a key lies before the entries that are looked for: the ones from
`key` on, or with `strict` the ones after it. -/
def isBefore (r : Reader) (key : Row) (strict : Bool) (candidate : Row) : Bool :=
  let o := r.order.compare candidate key
  if strict then o.isLE else o == .lt

/-- The ordinal of the first entry that is not before a key, if there is one. -/
def seek (r : Reader) (key : Row) (strict : Bool) : Except Error (Option Nat) :=
  let n := partitionPoint (fun e : TopEntry => r.isBefore key strict e.key) r.top
  if n = 0 then .ok (if r.top.isEmpty then none else some 0)
  else
    match r.readBlock (n - 1) with
    | .error e => .error e
    | .ok entries =>
      let slot := partitionPoint (fun e : BottomEntry => r.isBefore key strict e.key) entries
      if slot < entries.length then .ok (some ((n - 1) * r.header.loadFactor + slot))
      else if n < r.top.length then .ok (some (n * r.header.loadFactor))
      else .ok none

def entryAt (r : Reader) (ordinal : Nat) : Except Error BottomEntry :=
  match r.readBlock (ordinal / r.header.loadFactor) with
  | .error e => .error e
  | .ok entries =>
    match entries[ordinal % r.header.loadFactor]? with
    | some e => .ok e
    | none => .error (.corruption none (.entryMissing ordinal))

/-- The ordinal and the stored offset of an entry that was found. -/
structure Hit where
  position : Nat
  offset : Nat
deriving DecidableEq, Repr

/-- The first entry with a key, if it is the entry at `start` or the key's
first place, whichever comes later. -/
def findFrom (r : Reader) (key : Row) (start : Nat) : Except Error (Option Hit) := do
  r.checkKey key
  match ← r.seek key false with
  | none => return none
  | some first =>
    let position := max first start
    if r.entryCount ≤ position then return none
    else
      let e ← r.entryAt position
      return if r.order.compare e.key key == .eq then some ⟨position, e.offset⟩ else none

/-- The hits of a key from a place on, up to a number of them. -/
def hitsFrom (r : Reader) (key : Row) : Nat → Nat → Except Error (List Hit)
  | 0, _ => return []
  | n + 1, start => do
    match ← r.findFrom key start with
    | none => return []
    | some hit => return hit :: (← hitsFrom r key n (hit.position + 1))

/-- All hits of a key in their order. -/
def hits (r : Reader) (key : Row) : Except Error (List Hit) :=
  r.hitsFrom key (r.entryCount + 1) 0

def find (r : Reader) (key : Row) : Except Error (Option Nat) :=
  (r.findFrom key 0).map (·.map (·.offset))

end Reader
end BlockQuery.Index
