import StackScript.Cell
import StackScript.Bytecode.Opcode

/-! # Instructions and their encoding

An instruction is one operation code byte followed by the operand bytes that the code asks for:
four for an integer constant, one for a variable slot, none for the others. -/

namespace StackScript

inductive Instr where
  | constInt (value : Cell)
  | store (slot : UInt8)
  | load (slot : UInt8)
  | add
  | sub
  | mul
  | div
  | mod
  | intToFloat
  | floatToInt
  deriving DecidableEq, Repr

/-- Why no instruction can be read at an offset. A truncated instruction names its operation
code, unless the buffer ends before it. -/
inductive DecodeError where
  | unknownOpcode (offset : Nat) (byte : UInt8)
  | truncated (offset : Nat) (opcode : Option Opcode)
  deriving DecidableEq, Repr

/-- The word for the instruction that was cut off. -/
def truncatedMnemonic (opcode : Option Opcode) : String := opcode.elim "EOF" Opcode.mnemonic

namespace DecodeError

def message : DecodeError → String
  | unknownOpcode offset byte =>
      "unknown opcode " ++ Text.byteNumeral byte ++ " at " ++ Text.offsetNumeral offset
  | truncated offset opcode =>
      "truncated " ++ truncatedMnemonic opcode ++ " at " ++ Text.offsetNumeral offset

end DecodeError

namespace Instr

def opcode : Instr → Opcode
  | constInt _ => .constInt
  | store _ => .store
  | load _ => .load
  | add => .add
  | sub => .sub
  | mul => .mul
  | div => .div
  | mod => .mod
  | intToFloat => .intToFloat
  | floatToInt => .floatToInt

/-- The bytes behind the operation code. -/
def operandBytes : Instr → Bytes
  | constInt value => value.toBytes
  | store slot | load slot => [slot]
  | add | sub | mul | div | mod | intToFloat | floatToInt => []

/-- Length of the encoded instruction in bytes. -/
def size (instr : Instr) : Nat := 1 + instr.opcode.operandSize

def encode (instr : Instr) : Bytes := instr.opcode.toByte :: instr.operandBytes

/-- The instruction with the given operation code whose operand bytes start at `operand`. -/
def ofOpcode? (buffer : Bytes) (operand : Nat) : Opcode → Option Instr
  | .constInt => (Cell.read? buffer operand).map constInt
  | .store => buffer[operand]?.map store
  | .load => buffer[operand]?.map load
  | .add => some add
  | .sub => some sub
  | .mul => some mul
  | .div => some div
  | .mod => some mod
  | .intToFloat => some intToFloat
  | .floatToInt => some floatToInt

/-- The instruction that starts at `offset`, with its length. -/
def decode (buffer : Bytes) (offset : Nat) : Except DecodeError (Instr × Nat) :=
  match buffer[offset]? with
  | none => .error (.truncated offset none)
  | some byte =>
      match Opcode.ofByte? byte with
      | none => .error (.unknownOpcode offset byte)
      | some op =>
          match ofOpcode? buffer (offset + 1) op with
          | none => .error (.truncated offset (some op))
          | some instr => .ok (instr, 1 + op.operandSize)

/-- The instruction as it stands in listings. -/
def display : Instr → String
  | constInt value => Opcode.constInt.mnemonic ++ " " ++ toString value.toInt
  | store slot => Opcode.store.mnemonic ++ " " ++ toString slot.toNat
  | load slot => Opcode.load.mnemonic ++ " " ++ toString slot.toNat
  | instr => instr.opcode.mnemonic

@[simp] theorem length_encode (instr : Instr) : instr.encode.length = instr.size := by
  cases instr <;> simp [encode, operandBytes, size, opcode, Opcode.operandSize]

theorem size_pos (instr : Instr) : 0 < instr.size := by
  simp only [size]
  omega

end Instr

/-- The bytecode of a sequence of instructions. -/
def assemble (instrs : List Instr) : Bytes := instrs.flatMap Instr.encode

end StackScript
