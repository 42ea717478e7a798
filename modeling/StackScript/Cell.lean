import StackScript.Bytes

/-! # Cells

Every value that the machine computes with is a cell of 32 bits. Whether the bits are an integer
in two's complement or a binary32 number is known to the compiled program alone. -/

namespace StackScript

abbrev Cell := BitVec 32

namespace Cell

/-- Number of bytes of a cell. -/
def width : Nat := 4

def toBytes (cell : Cell) : Bytes := LittleEndian.encode width cell.toNat

def ofBytes (bytes : Bytes) : Cell := BitVec.ofNat 32 (LittleEndian.decode bytes)

/-- The cell whose bytes start at `offset` of the buffer. -/
def read? (buffer : Bytes) (offset : Nat) : Option Cell :=
  (buffer.slice? offset width).map ofBytes

@[simp] theorem length_toBytes (cell : Cell) : cell.toBytes.length = 4 :=
  LittleEndian.length_encode width cell.toNat

end Cell

end StackScript
