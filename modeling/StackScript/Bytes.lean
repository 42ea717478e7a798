/-! # Byte strings

Byte buffers are lists of bytes. Numbers enter and leave them with the least significant byte
first. -/

namespace StackScript

abbrev Bytes := List UInt8

/-- The `width` bytes that start at `offset`, provided that the buffer holds all of them. -/
def Bytes.slice? (buffer : Bytes) (offset width : Nat) : Option Bytes :=
  if offset + width ≤ buffer.length then some ((buffer.drop offset).take width) else none

/-- The last `width` bytes, provided that there are so many. -/
def Bytes.last? (buffer : Bytes) (width : Nat) : Option Bytes :=
  if width ≤ buffer.length then some (buffer.drop (buffer.length - width)) else none

namespace LittleEndian

/-- The lowest `width` bytes of a number. -/
def encode : (width : Nat) → Nat → Bytes
  | 0, _ => []
  | width + 1, n => UInt8.ofNat (n % 256) :: encode width (n / 256)

/-- The number that a byte string stands for. -/
def decode : Bytes → Nat
  | [] => 0
  | b :: bs => b.toNat + 256 * decode bs

@[simp] theorem length_encode (width n : Nat) : (encode width n).length = width := by
  induction width generalizing n with
  | zero => rfl
  | succ width ih => simp [encode, ih]

end LittleEndian

end StackScript
