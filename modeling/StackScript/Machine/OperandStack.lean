import StackScript.Machine.Fault

/-! # The operand stack

A stack of byte strings in one buffer of fixed capacity. Values carry no tag: what was pushed is
taken back as bytes, and must be taken back with its own width. The widths are kept beside the
buffer for this check alone. -/

namespace StackScript

/-- Why a value cannot be taken from the stack. A wrong width is a mistake of the caller and no
fault of the running program. -/
inductive PopError where
  | fault (fault : Fault)
  | widthMismatch (requested : Nat)
  deriving DecidableEq, Repr

structure OperandStack where
  capacity : Nat
  /-- Contents from the bottom up. -/
  bytes : Bytes := []
  /-- Widths of the values, the topmost first. -/
  widths : List Nat := []
  deriving DecidableEq, Repr

namespace OperandStack

/-- Capacity in bytes when none, or none above zero, is asked for. -/
def defaultCapacity : Nat := 1024

/-- An empty stack. -/
def ofCapacity (capacity : Nat) : OperandStack :=
  { capacity := if capacity = 0 then defaultCapacity else capacity }

/-- Number of bytes on the stack. -/
def position (stack : OperandStack) : Nat := stack.bytes.length

def isEmpty (stack : OperandStack) : Bool := stack.position == 0

def clear (stack : OperandStack) : OperandStack := { stack with bytes := [], widths := [] }

def push (stack : OperandStack) (value : Bytes) : Except Fault OperandStack :=
  if stack.capacity < stack.position + value.length then
    .error (.stackOverflow value.length stack.position stack.capacity)
  else
    .ok { stack with bytes := stack.bytes ++ value, widths := value.length :: stack.widths }

/-- Take the topmost value, which must be `width` bytes wide. -/
def pop (stack : OperandStack) (width : Nat) : Except PopError (Bytes × OperandStack) :=
  match stack.bytes.last? width with
  | none => .error (.fault (.stackUnderflow width stack.position))
  | some value =>
      if stack.widths.head? = some width then
        .ok (value, { stack with
          bytes := stack.bytes.take (stack.position - width), widths := stack.widths.tail })
      else
        .error (.widthMismatch width)

/-- The topmost `width` bytes, whatever values they belong to. -/
def peek? (stack : OperandStack) (width : Nat) : Option Bytes := stack.bytes.last? width

end OperandStack

end StackScript
