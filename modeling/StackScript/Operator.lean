import StackScript.Bytecode.Instr

/-! # Operators -/

namespace StackScript

inductive Arithmetic where
  | add | sub | mul | div | mod
  deriving DecidableEq, Repr

/-- The instruction that computes the operation. -/
def Arithmetic.instr : Arithmetic → Instr
  | add => .add
  | sub => .sub
  | mul => .mul
  | div => .div
  | mod => .mod

inductive Operator where
  | assign
  | arithmetic (op : Arithmetic)
  deriving DecidableEq, Repr

namespace Operator

/-- Operators of higher precedence bind tighter. -/
def precedence : Operator → Nat
  | assign => 0
  | arithmetic .add | arithmetic .sub => 1
  | arithmetic .mul | arithmetic .div | arithmetic .mod => 2

def symbol : Operator → String
  | assign => "="
  | arithmetic .add => "+"
  | arithmetic .sub => "-"
  | arithmetic .mul => "*"
  | arithmetic .div => "/"
  | arithmetic .mod => "%"

end Operator

end StackScript
