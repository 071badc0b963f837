import BlockQuery.Bytes

/-!
# CRC-32

The checksum of records and index sections: the reflected polynomial
`0xEDB88320`, with all bits of the register set at the start and inverted at
the end.
-/

namespace BlockQuery.Checksum

/-- One bit of division by the polynomial. -/
def shiftBit (crc : UInt32) : UInt32 :=
  if crc &&& 1 = 1 then (crc >>> 1) ^^^ 0xEDB88320 else crc >>> 1

def shiftBits : Nat → UInt32 → UInt32
  | 0, crc => crc
  | n + 1, crc => shiftBits n (shiftBit crc)

/-- The register after one more byte. -/
def step (crc : UInt32) (b : UInt8) : UInt32 := shiftBits 8 (crc ^^^ b.toUInt32)

/-- The register after more bytes. -/
def update (crc : UInt32) (bytes : Bytes) : UInt32 := bytes.foldl step crc

end BlockQuery.Checksum

namespace BlockQuery

def checksum (bytes : Bytes) : UInt32 :=
  Checksum.update 0xFFFFFFFF bytes ^^^ 0xFFFFFFFF

end BlockQuery
