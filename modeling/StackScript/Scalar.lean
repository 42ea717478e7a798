import StackScript.Bytes

/-! # Scalars

The fixed-width values that can stand in a byte buffer. A value is its bit pattern, so a signed
and an unsigned integer of one size, or a number and the bits of a NaN, differ only in how they
are shown. -/

namespace StackScript

inductive Scalar where
  | uint8 | int8 | uint16 | int16 | uint32 | int32 | uint64 | int64 | binary32 | binary64
  deriving DecidableEq, Repr

namespace Scalar

/-- Size in bytes. -/
def size : Scalar → Nat
  | uint8 | int8 => 1
  | uint16 | int16 => 2
  | uint32 | int32 | binary32 => 4
  | uint64 | int64 | binary64 => 8

/-- The bit patterns of a scalar type. -/
abbrev Bits (s : Scalar) := BitVec (8 * s.size)

def toBytes (s : Scalar) (value : s.Bits) : Bytes := LittleEndian.encode s.size value.toNat

def ofBytes (s : Scalar) (bytes : Bytes) : s.Bits := BitVec.ofNat _ (LittleEndian.decode bytes)

/-- Put a value behind the end of a buffer. -/
def append (s : Scalar) (buffer : Bytes) (value : s.Bits) : Bytes := buffer ++ s.toBytes value

/-- The value whose bytes start at `offset`, if the buffer reaches that far. -/
def read? (s : Scalar) (buffer : Bytes) (offset : Nat) : Option s.Bits :=
  (buffer.slice? offset s.size).map s.ofBytes

end Scalar

end StackScript
