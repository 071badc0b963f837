import BlockQuery.ByteCursor
import BlockQuery.Disk
import BlockQuery.Schema
import BlockQuery.Severity

/-!
# Errors of index files
-/

namespace BlockQuery.Index

/-- What is wrong with an index file. -/
inductive Damage where
  | headerTruncated
  | badMagic
  | badVersion (version : Nat)
  | badColumnTag (tag : Nat)
  | specOutOfRange (position columns : Nat)
  | headerChecksum
  | noLoadFactor
  | topCount (found entries loadFactor expected : Nat)
  | noKeyColumns
  | longName (length : Nat)
  | nameNotText
  | fileLength (size expected : Nat)
  | unresolvedSpecs (e : LookupError)
  | sectionTruncated (level : String)
  | sectionChecksum (level : String)
  | entry (level : String) (e : DecodeError)
  | topKeyWidth
  | topOutside (i offset size : Nat)
  | firstBlock
  | topNotIncreasing (i offset : Nat)
  | topOutOfOrder (i : Nat)
  | topTrailing (bytes : Nat)
  | blockMissing (block : Nat)
  | bottomKeyWidth
  | blockTrailing (block bytes : Nat)
  | entryMissing (ordinal : Nat)
  | other (text : String)
deriving DecidableEq, Repr

def formatVersion : Nat := 1

/-- The longest column name that a reader takes. -/
def maxNameLength : Nat := 65536

def Damage.message : Damage → String
  | headerTruncated => "Index header truncated"
  | badMagic => "Bad magic: not a two-level index file"
  | badVersion version =>
    s!"Unsupported index version {version} (expected {formatVersion})"
  | badColumnTag tag => s!"Unknown column type tag {tag}"
  | specOutOfRange position columns => s!"Sort spec refers to key column {position} of {columns}"
  | headerChecksum => "Header checksum mismatch"
  | noLoadFactor => "Load factor is zero"
  | topCount found entries loadFactor expected =>
    s!"Top level has {found} entries, {entries} entries at load factor {loadFactor} need {expected}"
  | noKeyColumns => "Index header has no key columns"
  | longName length => s!"Column name length {length} exceeds {maxNameLength}"
  | nameNotText => "Column name is not UTF-8"
  | fileLength size expected => s!"Index file is {size} bytes, header describes {expected}"
  | unresolvedSpecs e => "Sort specs do not resolve: " ++ e.message
  | sectionTruncated level => "Index " ++ level ++ " truncated"
  | sectionChecksum level => level ++ " checksum mismatch"
  | entry level e => level ++ " section: " ++ e.message
  | topKeyWidth => "Top entry key does not match key schema"
  | topOutside i offset size =>
    s!"Top entry {i} points at {offset} outside bottom level of {size} bytes"
  | firstBlock => "First bottom block does not start at 0"
  | topNotIncreasing i offset => s!"Top entry {i} offset {offset} is not increasing"
  | topOutOfOrder i => s!"Top entry {i} key is out of order"
  | topTrailing bytes => s!"Top level has {bytes} trailing bytes"
  | blockMissing block => s!"Block {block} not in directory"
  | bottomKeyWidth => "Bottom entry key does not match key schema"
  | blockTrailing block bytes => s!"Block {block} has {bytes} trailing bytes"
  | entryMissing ordinal => s!"Entry {ordinal} missing"
  | other text => text

/-- What is wrong with a key or with the definition of an index. -/
inductive KeyFault where
  | noLoadFactor
  | noKeyColumns
  | lookup (e : LookupError)
  | keyWidth (width : Nat) (schema : Schema)
  | lookupWidth (width : Nat) (schema : Schema)
  | other (text : String)
deriving DecidableEq, Repr

def KeyFault.message : KeyFault → String
  | noLoadFactor => "Load factor must be greater than 0"
  | noKeyColumns => "An index needs at least one key column"
  | lookup e => e.message
  | keyWidth width schema =>
    s!"Key has {width} values, index key schema {schema.display} has {schema.length}"
  | lookupWidth width schema =>
    s!"Lookup key has {width} values, index key schema {schema.display} has {schema.length}"
  | other text => text

inductive Error where
  | corruption (offset : Option Nat) (damage : Damage)
  | orderViolation (position : Nat) (reason : String)
  | invalidKey (fault : KeyFault)
  | io (message : String) (cause : IoError)
  /-- A sum of 64-bit words leaves the 64 bits. -/
  | overflow
  /-- Room is asked for more entries than can be addressed. -/
  | capacity
deriving DecidableEq, Repr

namespace Error

def code : Error → String
  | corruption .. => "TESSERA_INDEX_CORRUPTION"
  | orderViolation .. => "TESSERA_INDEX_ORDER_VIOLATION"
  | invalidKey .. => "TESSERA_INDEX_INVALID_KEY"
  | io .. => "TESSERA_INDEX_IO_ERROR"
  | overflow => "overflow"
  | capacity => "capacity"

def severity : Error → Severity
  | corruption .. => .fatal
  | _ => .error

def isFatal (e : Error) : Bool := e.severity == .fatal

def message : Error → String
  | corruption _ damage => damage.message
  | orderViolation position reason => s!"entry {position}: {reason}"
  | invalidKey fault => fault.message
  | io message _ => message
  | overflow => "attempt to add with overflow"
  | capacity => "capacity overflow"

def offset? : Error → Option Nat
  | corruption offset _ => offset
  | _ => none

def cause? : Error → Option IoError
  | io _ cause => some cause
  | _ => none

def display (e : Error) : String :=
  errorLine e.severity.name e.code e.message e.offset? (e.cause?.map (·.message))

end Error
end BlockQuery.Index
