/-
# The checksum of a payload

The cyclic redundancy check with the polynomial `0xEDB88320`, low bit first:
the register starts with all bits set, takes one byte at a time, and is
complemented at the end.

Key definitions: `Crc32.shift`, `Crc32.step`, `crc32`.
-/
import ResourceMachine.Code.Bytes

namespace ResourceMachine
namespace Crc32

/-- The generator polynomial, low bit first, without its leading term. -/
def polynomial : UInt32 := 0xEDB88320

/-- Divide the register by one bit. -/
def shift (c : UInt32) : UInt32 :=
  if c % 2 = 1 then (c >>> 1) ^^^ polynomial else c >>> 1

/-- Divide the register by `k` bits. -/
def shifts : Nat → UInt32 → UInt32
  | 0, c => c
  | k + 1, c => shifts k (shift c)

/-- Take one byte into the register. -/
def step (c : UInt32) (b : UInt8) : UInt32 :=
  shifts 8 (c ^^^ b.toUInt32)

/-- The register after a sequence of bytes. -/
def register (bytes : List UInt8) : UInt32 :=
  bytes.foldl step 0xFFFFFFFF

end Crc32

/-- The checksum of a sequence of bytes. -/
def crc32 (bytes : Bytes) : UInt32 :=
  Crc32.register bytes.toList ^^^ 0xFFFFFFFF

end ResourceMachine
