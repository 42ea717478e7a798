import StackScript.Binary32
import StackScript.Machine.OperandStack
import StackScript.Machine.VariableStore

/-! # The virtual machine

The machine holds bytecode, the offset of the next instruction, an operand stack and a variable
store. A step executes one instruction. The machine halts when it reaches the end of the bytecode
or at the first fault, and a halted machine stays as it is. -/

namespace StackScript

/-- How a machine came to a halt. `aborted` stands for a value taken from the operand stack with
a wrong width, which no program can bring about. -/
inductive Halt where
  | normal
  | fault (fault : Fault)
  | aborted
  deriving DecidableEq, Repr

inductive Status where
  | running
  | halted (halt : Halt)
  deriving DecidableEq, Repr

namespace Status

def isHalted : Status → Bool
  | running => false
  | halted _ => true

def fault? : Status → Option Fault
  | halted (.fault fault) => some fault
  | _ => none

end Status

structure Vm where
  /-- Capacity of the operand stack as it was asked for. -/
  stackSize : Option Nat
  code : Bytes
  pc : Nat
  stack : OperandStack
  store : VariableStore
  status : Status
  deriving DecidableEq, Repr

namespace Vm

/-- A machine without a program. -/
def new (stackSize : Option Nat) : Vm :=
  { stackSize
    code := []
    pc := 0
    stack := OperandStack.ofCapacity (stackSize.getD OperandStack.defaultCapacity)
    store := {}
    status := .running }

/-- Put a program into the machine. Nothing of an earlier run is left. -/
def load (vm : Vm) (code : Bytes) : Vm :=
  { vm with code, pc := 0, stack := vm.stack.clear, store := {}, status := .running }

/-! ## Single instructions -/

/-- Stop at the present instruction. -/
def halt (vm : Vm) (h : Halt) : Vm := { vm with status := .halted h }

/-- Push a cell and go on at `next`. -/
def pushCell (vm : Vm) (cell : Cell) (next : Nat) : Vm :=
  match vm.stack.push cell.toBytes with
  | .error fault => vm.halt (.fault fault)
  | .ok stack => { vm with stack, pc := next }

/-- Pop a cell and hand it on. -/
def popCell (vm : Vm) (use : Vm → Cell → Vm) : Vm :=
  match vm.stack.pop Cell.width with
  | .error (.fault fault) => vm.halt (.fault fault)
  | .error (.widthMismatch _) => vm.halt .aborted
  | .ok (bytes, stack) => use { vm with stack } (Cell.ofBytes bytes)

/-- Replace the topmost cell. -/
def unary (vm : Vm) (op : Cell → Cell) (next : Nat) : Vm :=
  vm.popCell fun vm a => vm.pushCell (op a) next

/-- Replace the two topmost cells; the deeper one is the left operand. Both are gone when the
operation has no result and faults. -/
def binary (vm : Vm) (op : Cell → Cell → Except Fault Cell) (next : Nat) : Vm :=
  vm.popCell fun vm a =>
    vm.popCell fun vm b =>
      match op b a with
      | .error fault => vm.halt (.fault fault)
      | .ok cell => vm.pushCell cell next

/-- Guard a division at the given offset against a zero divisor. -/
def unlessZero (offset : Nat) (op : Cell → Cell → Cell) (b a : Cell) : Except Fault Cell :=
  if a = 0 then .error (.divideByZero offset) else .ok (op b a)

/-- Execute the instruction with the given operation code at the program counter. Its operand is
read in place. Quotients are truncated toward zero, and remainders have the sign of the
dividend. -/
def exec (vm : Vm) (op : Opcode) : Vm :=
  let operand := vm.pc + 1
  let next := operand + op.operandSize
  let truncated := vm.halt (.fault (.truncatedInstruction vm.pc (some op)))
  match op with
  | .constInt =>
      match Cell.read? vm.code operand with
      | none => truncated
      | some value => vm.pushCell value next
  | .store =>
      match vm.code[operand]? with
      | none => truncated
      | some slot =>
          vm.popCell fun vm cell =>
            { vm with store := vm.store.write slot.toNat cell.toBytes, pc := next }
  | .load =>
      match vm.code[operand]? with
      | none => truncated
      | some slot =>
          vm.pushCell ((vm.store.read? slot.toNat Cell.width).elim 0 Cell.ofBytes) next
  | .add => vm.binary (fun b a => .ok (b + a)) next
  | .sub => vm.binary (fun b a => .ok (b - a)) next
  | .mul => vm.binary (fun b a => .ok (b * a)) next
  | .div => vm.binary (unlessZero vm.pc BitVec.sdiv) next
  | .mod => vm.binary (unlessZero vm.pc BitVec.srem) next
  | .intToFloat => vm.unary Binary32.ofIntCell next
  | .floatToInt => vm.unary Binary32.toIntCell next

/-- One step: a running machine executes an instruction, or halts at the end of its code. -/
def step (vm : Vm) : Vm :=
  match vm.status with
  | .halted _ => vm
  | .running =>
      match vm.code[vm.pc]? with
      | none => vm.halt .normal
      | some byte =>
          match Opcode.ofByte? byte with
          | none => vm.halt (.fault (.unknownOpcode vm.pc byte))
          | some op => vm.exec op

/-! ## Runs -/

/-- Execute at most the given number of instructions. -/
def runSteps (vm : Vm) : Nat → Vm
  | 0 => vm
  | count + 1 => if vm.status.isHalted then vm else vm.step.runSteps count

/-! A step that leaves the machine running moves the program counter forward, inside the same
code. This is why every run ends. -/

theorem halt_status (vm : Vm) (h : Halt) : (vm.halt h).status ≠ .running := by
  simp [halt]

/-- From `vm` to `vm'` the machine halted, or went on at `next` with the same code. -/
def Advances (vm vm' : Vm) (next : Nat) : Prop :=
  vm'.status = .running → vm'.pc = next ∧ vm'.code = vm.code

theorem advances_halt (vm : Vm) (h : Halt) (next : Nat) : Advances vm (vm.halt h) next :=
  fun hr => absurd hr (halt_status vm h)

theorem advances_pushCell (vm : Vm) (cell : Cell) (next : Nat) :
    Advances vm (vm.pushCell cell next) next := by
  unfold pushCell
  split
  · exact advances_halt vm _ next
  · exact fun _ => ⟨rfl, rfl⟩

theorem advances_popCell (vm : Vm) (use : Vm → Cell → Vm) (next : Nat)
    (h : ∀ vm' cell, vm'.code = vm.code → Advances vm (use vm' cell) next) :
    Advances vm (vm.popCell use) next := by
  unfold popCell
  split
  · exact advances_halt vm _ next
  · exact advances_halt vm _ next
  · exact h _ _ rfl

theorem Advances.trans_code {vm vm' vm'' : Vm} {next : Nat} (h : Advances vm' vm'' next)
    (hcode : vm'.code = vm.code) : Advances vm vm'' next :=
  fun hr => ⟨(h hr).1, (h hr).2.trans hcode⟩

theorem advances_unary (vm : Vm) (op : Cell → Cell) (next : Nat) :
    Advances vm (vm.unary op next) next :=
  advances_popCell vm _ next fun vm' cell hcode =>
    (advances_pushCell vm' (op cell) next).trans_code hcode

theorem advances_binary (vm : Vm) (op : Cell → Cell → Except Fault Cell) (next : Nat) :
    Advances vm (vm.binary op next) next := by
  refine advances_popCell vm _ next fun vm' a hcode => ?_
  refine Advances.trans_code (advances_popCell vm' _ next fun vm'' b hcode' => ?_) hcode
  split
  · exact (advances_halt vm'' _ next).trans_code hcode'
  · exact (advances_pushCell vm'' _ next).trans_code hcode'

theorem advances_exec (vm : Vm) (op : Opcode) :
    Advances vm (vm.exec op) (vm.pc + 1 + op.operandSize) := by
  cases op with
  | constInt =>
      simp only [exec]
      split
      · exact advances_halt vm _ _
      · exact advances_pushCell vm _ _
  | store =>
      simp only [exec]
      split
      · exact advances_halt vm _ _
      · exact advances_popCell vm _ _ fun _ _ hcode _ => ⟨rfl, hcode⟩
  | load =>
      simp only [exec]
      split
      · exact advances_halt vm _ _
      · exact advances_pushCell vm _ _
  | add | sub | mul | div | mod => exact advances_binary vm _ _
  | intToFloat | floatToInt => exact advances_unary vm _ _

/-- A step that leaves a machine running started inside the code and moved forward. -/
theorem step_progress {vm : Vm} (h : vm.step.status = .running) :
    vm.pc < vm.code.length ∧ vm.pc < vm.step.pc ∧ vm.step.code = vm.code := by
  cases hs : vm.status with
  | halted _ => simp [step, hs] at h
  | running =>
      cases hbyte : vm.code[vm.pc]? with
      | none => simp [step, hs, hbyte, halt] at h
      | some byte =>
          have hlt := (List.getElem?_eq_some_iff.mp hbyte).1
          cases hop : Opcode.ofByte? byte with
          | none => simp [step, hs, hbyte, hop, halt] at h
          | some op =>
              have heq : vm.step = vm.exec op := by simp [step, hs, hbyte, hop]
              rw [heq] at h ⊢
              have hadv := advances_exec vm op h
              exact ⟨hlt, by omega, hadv.2⟩

/-- Execute until the machine halts. -/
def execute (vm : Vm) : Vm :=
  match h : vm.step.status with
  | .halted _ => vm.step
  | .running =>
      have := step_progress h
      vm.step.execute
termination_by vm.code.length - vm.pc
decreasing_by
  rw [this.2.2]
  omega

/-- What a run came to: a machine that faulted reports its fault. -/
def outcome (vm : Vm) : Except Fault Unit :=
  match vm.status.fault? with
  | some fault => .error fault
  | none => .ok ()

/-- Load a program and execute it to the end. -/
def run (vm : Vm) (code : Bytes) : Vm := (vm.load code).execute

/-! ## Observations -/

/-- The cell on top of the operand stack. -/
def top? (vm : Vm) : Option Cell := (vm.stack.peek? Cell.width).map Cell.ofBytes

/-- The written variables by slot number. -/
def cells (vm : Vm) : List (Nat × Cell) :=
  (List.range vm.store.size).filterMap fun slot =>
    (vm.store.read? slot Cell.width).map fun bytes => (slot, Cell.ofBytes bytes)

end Vm

end StackScript
