import StackScript.Bytecode.Instr

/-! # Machine faults -/

namespace StackScript

/-- What stops the machine for good. Sizes and positions are in bytes. -/
inductive Fault where
  | stackOverflow (requested position capacity : Nat)
  | stackUnderflow (requested position : Nat)
  | divideByZero (offset : Nat)
  | unknownOpcode (offset : Nat) (byte : UInt8)
  | truncatedInstruction (offset : Nat) (opcode : Option Opcode)
  deriving DecidableEq, Repr

namespace Fault

def ofDecodeError : DecodeError → Fault
  | .unknownOpcode offset byte => unknownOpcode offset byte
  | .truncated offset opcode => truncatedInstruction offset opcode

def message : Fault → String
  | stackOverflow requested position capacity =>
      "stack overflow: pushing " ++ toString requested ++ " bytes at position " ++
        toString position ++ " exceeds capacity " ++ toString capacity
  | stackUnderflow requested position =>
      "stack underflow: popping " ++ toString requested ++ " bytes at position " ++
        toString position
  | divideByZero offset => "division by zero at " ++ Text.offsetNumeral offset
  | unknownOpcode offset byte =>
      "unknown opcode " ++ Text.byteNumeral byte ++ " at " ++ Text.offsetNumeral offset
  | truncatedInstruction offset opcode =>
      "instruction " ++ truncatedMnemonic opcode ++ " at " ++ Text.offsetNumeral offset ++
        " runs past the end of the bytecode"

/-- The message as a host reports it. -/
def report (fault : Fault) : String := "runtime error: " ++ fault.message

/-- The name of the kind of fault. -/
def name : Fault → String
  | stackOverflow .. => "StackOverflow"
  | stackUnderflow .. => "StackUnderflow"
  | divideByZero .. => "DivideByZero"
  | unknownOpcode .. => "UnknownOpcode"
  | truncatedInstruction .. => "TruncatedInstruction"

end Fault

namespace DecodeError

/-- The message as a host reports it. -/
def report (error : DecodeError) : String := "bytecode error: " ++ error.message

/-- The name of the kind of error. -/
def name : DecodeError → String
  | unknownOpcode .. => "UnknownOpcode"
  | truncated .. => "Truncated"

end DecodeError

end StackScript
