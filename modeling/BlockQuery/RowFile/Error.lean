import BlockQuery.Disk
import BlockQuery.RowFile.Record
import BlockQuery.Severity

/-!
# Errors of row files
-/

namespace BlockQuery

/-- What is wrong with a row file at an offset. -/
inductive RowDamage where
  | tail (remaining : Nat)
  | badLength (length remaining : Nat)
  | record (e : RecordError)
  | noRecord
  | other (text : String)
deriving DecidableEq, Repr

def RowDamage.message : RowDamage → String
  | tail remaining =>
    s!"Truncated data file: {remaining} bytes remaining, minimum record size is {Record.minLength}"
  | badLength length remaining => s!"Invalid record length {length} ({remaining} bytes remaining)"
  | record e => e.message
  | noRecord => "No record at specified offset"
  | other text => text

inductive StorageError where
  | io (message : String) (cause : IoError)
  | corruption (offset : Nat) (damage : RowDamage)
deriving DecidableEq, Repr

namespace StorageError

def code : StorageError → String
  | io .. => "TESSERA_STORAGE_IO_ERROR"
  | corruption .. => "TESSERA_DATA_CORRUPTION"

def severity : StorageError → Severity
  | io .. => .error
  | corruption .. => .fatal

def isFatal (e : StorageError) : Bool := e.severity == .fatal

def message : StorageError → String
  | io message _ => message
  | corruption _ damage => damage.message

def offset? : StorageError → Option Nat
  | io .. => none
  | corruption offset _ => some offset

def cause? : StorageError → Option IoError
  | io _ cause => some cause
  | corruption .. => none

def display (e : StorageError) : String :=
  errorLine e.severity.name e.code e.message e.offset? (e.cause?.map (·.message))

end StorageError
end BlockQuery
