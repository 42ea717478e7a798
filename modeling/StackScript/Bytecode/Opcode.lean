import StackScript.Text.Hexadecimal

/-! # Operation codes -/

namespace StackScript

inductive Opcode where
  | constInt | store | load | add | sub | mul | div | mod | intToFloat | floatToInt
  deriving DecidableEq, Repr

namespace Opcode

def toByte : Opcode → UInt8
  | constInt => 0
  | store => 1
  | load => 2
  | add => 3
  | sub => 4
  | mul => 5
  | div => 6
  | mod => 7
  | intToFloat => 8
  | floatToInt => 9

def ofByte? : UInt8 → Option Opcode
  | 0 => some constInt
  | 1 => some store
  | 2 => some load
  | 3 => some add
  | 4 => some sub
  | 5 => some mul
  | 6 => some div
  | 7 => some mod
  | 8 => some intToFloat
  | 9 => some floatToInt
  | _ => none

/-- Number of operand bytes that follow the operation code. -/
def operandSize : Opcode → Nat
  | constInt => 4
  | store | load => 1
  | add | sub | mul | div | mod | intToFloat | floatToInt => 0

def mnemonic : Opcode → String
  | constInt => "CONST_INT"
  | store => "STORE"
  | load => "LOAD"
  | add => "ADD"
  | sub => "SUB"
  | mul => "MUL"
  | div => "DIV"
  | mod => "MOD"
  | intToFloat => "INT_TO_FLOAT"
  | floatToInt => "FLOAT_TO_INT"

/-- What is said of a byte that is no operation code. -/
def invalidMessage (byte : UInt8) : String := "invalid opcode " ++ Text.byteNumeral byte

@[simp] theorem ofByte?_toByte (op : Opcode) : ofByte? op.toByte = some op := by
  cases op <;> rfl

end Opcode

end StackScript
