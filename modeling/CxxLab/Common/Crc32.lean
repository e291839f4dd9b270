import Mathlib.Data.Nat.Notation

/-!
# CRC32C

`common/crc32.cc`: the byte-wise table algorithm over the reflected Castagnoli polynomial. The
hardware path of the source computes the same function.
-/

namespace CxxLab.Common

/-- `POLY_CASTAGNOLI`. -/
def polyCastagnoli : UInt32 := 0x82F63B78

/-- One bit of a table entry. -/
def crcBit (crc : UInt32) : UInt32 :=
  if crc &&& 1 = 1 then (crc >>> 1) ^^^ polyCastagnoli else crc >>> 1

/-- The table entry of a byte: eight rounds of `crcBit`. -/
def crcTable (i : UInt32) : UInt32 := Nat.repeat crcBit 8 i

/-- The loop of `crc32c_software_fallback` for one byte. -/
def crcByte (crc : UInt32) (b : UInt8) : UInt32 :=
  (crc >>> 8) ^^^ crcTable ((crc ^^^ b.toUInt32) &&& 0xFF)

/-- `calc_crc32` of a buffer. -/
def calcCrc32 (data : List UInt8) (previousCrc : UInt32) : UInt32 :=
  if data.length = 0 then previousCrc else ~~~ (data.foldl crcByte (~~~ previousCrc))

end CxxLab.Common
