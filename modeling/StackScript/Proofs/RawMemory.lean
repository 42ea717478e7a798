import StackScript.Proofs.MachineInvariant

/-! # The machine in raw memory

Here the operand stack is a buffer of fixed length with a cursor. Every slice and every index can
be out of range, and then there is no result at all. The same holds for the width that is asserted
when a value is popped, and for a run that would not end. No sequence of calls comes to any of
this, and what lies in memory is what the machine holds. -/

namespace StackScript

/-! ## Memory -/

/-- Write a value over the bytes from `offset` on, all of which must be there. -/
def Bytes.overwrite? (buffer : Bytes) (offset : Nat) (value : Bytes) : Option Bytes :=
  if offset + value.length ≤ buffer.length then
    some (buffer.take offset ++ value ++ buffer.drop (offset + value.length))
  else none

/-- Write a value into a slot, for which the store grows first if need be. -/
def VariableStore.write? (store : VariableStore) (slot : Nat) (value : Bytes) :
    Option VariableStore :=
  let slots :=
    if slot < store.size then store.slots
    else store.slots ++ List.replicate (slot + 1 - store.size) none
  if slot < slots.length then some ⟨slots.set slot (some value)⟩ else none

structure RawStack where
  buffer : Bytes
  /-- Number of bytes in use, from the start of the buffer. -/
  position : Nat := 0
  /-- Widths of the values, the topmost first. -/
  widths : List Nat := []

namespace RawStack

/-- A cleared buffer. -/
def ofCapacity (capacity : Nat) : RawStack :=
  { buffer :=
      List.replicate (if capacity = 0 then OperandStack.defaultCapacity else capacity) 0 }

/-- The bytes stay where they are. -/
def clear (stack : RawStack) : RawStack := { stack with position := 0, widths := [] }

def push? (stack : RawStack) (value : Bytes) : Option (Except Fault RawStack) :=
  let stop := stack.position + value.length
  if stack.buffer.length < stop then
    some (.error (.stackOverflow value.length stack.position stack.buffer.length))
  else do
    let buffer ← stack.buffer.overwrite? stack.position value
    return .ok ⟨buffer, stop, value.length :: stack.widths⟩

def pop? (stack : RawStack) (width : Nat) : Option (Except Fault (Bytes × RawStack)) :=
  let start := stack.position - width
  if stack.position < width then some (.error (.stackUnderflow width stack.position))
  else if stack.widths.head? = some width then do
    let value ← stack.buffer.slice? start width
    return .ok (value, { stack with position := start, widths := stack.widths.tail })
  else none

end RawStack

/-! ## The machine -/

structure RawVm where
  code : Bytes
  pc : Nat
  stack : RawStack
  store : VariableStore
  status : Status

namespace RawVm

def new (stackSize : Option Nat) : RawVm :=
  { code := []
    pc := 0
    stack := RawStack.ofCapacity (stackSize.getD OperandStack.defaultCapacity)
    store := {}
    status := .running }

def load (raw : RawVm) (code : Bytes) : RawVm :=
  { code, pc := 0, stack := raw.stack.clear, store := {}, status := .running }

def halt (raw : RawVm) (h : Halt) : RawVm := { raw with status := .halted h }

def pushCell? (raw : RawVm) (cell : Cell) (next : Nat) : Option RawVm := do
  match ← raw.stack.push? cell.toBytes with
  | .error fault => return raw.halt (.fault fault)
  | .ok stack => return { raw with stack, pc := next }

def popCell? (raw : RawVm) (use : RawVm → Cell → Option RawVm) : Option RawVm := do
  match ← raw.stack.pop? Cell.width with
  | .error fault => return raw.halt (.fault fault)
  | .ok (bytes, stack) => use { raw with stack } (Cell.ofBytes bytes)

def unary? (raw : RawVm) (op : Cell → Cell) (next : Nat) : Option RawVm :=
  raw.popCell? fun raw a => raw.pushCell? (op a) next

def binary? (raw : RawVm) (op : Cell → Cell → Except Fault Cell) (next : Nat) : Option RawVm :=
  raw.popCell? fun raw a =>
    raw.popCell? fun raw b =>
      match op b a with
      | .error fault => some (raw.halt (.fault fault))
      | .ok cell => raw.pushCell? cell next

/-- Execute an instruction once it is known to lie inside the code. -/
def exec? (raw : RawVm) (op : Opcode) : Option RawVm :=
  let operand := raw.pc + 1
  let next := operand + op.operandSize
  let truncated := raw.halt (.fault (.truncatedInstruction raw.pc (some op)))
  if raw.code.length < next then some truncated
  else
    match op with
    | .constInt =>
        match Cell.read? raw.code operand with
        | none => some truncated
        | some value => raw.pushCell? value next
    | .store =>
        match raw.code[operand]? with
        | none => some truncated
        | some slot =>
            raw.popCell? fun raw cell => do
              let store ← raw.store.write? slot.toNat cell.toBytes
              return { raw with store, pc := next }
    | .load =>
        match raw.code[operand]? with
        | none => some truncated
        | some slot =>
            raw.pushCell? ((raw.store.read? slot.toNat Cell.width).elim 0 Cell.ofBytes) next
    | .add => raw.binary? (fun b a => .ok (b + a)) next
    | .sub => raw.binary? (fun b a => .ok (b - a)) next
    | .mul => raw.binary? (fun b a => .ok (b * a)) next
    | .div => raw.binary? (Vm.unlessZero raw.pc BitVec.sdiv) next
    | .mod => raw.binary? (Vm.unlessZero raw.pc BitVec.srem) next
    | .intToFloat => raw.unary? Binary32.ofIntCell next
    | .floatToInt => raw.unary? Binary32.toIntCell next

def step? (raw : RawVm) : Option RawVm :=
  match raw.status with
  | .halted _ => some raw
  | .running =>
      if raw.code.length ≤ raw.pc then some (raw.halt .normal)
      else do
        let byte ← raw.code[raw.pc]?
        match Opcode.ofByte? byte with
        | none => return raw.halt (.fault (.unknownOpcode raw.pc byte))
        | some op => raw.exec? op

def runSteps? (raw : RawVm) : Nat → Option RawVm
  | 0 => some raw
  | count + 1 => if raw.status.isHalted then some raw else raw.step? >>= (runSteps? · count)

/-- A run to the end takes one step after the other, up to the first that leaves the machine
halted. -/
inductive Executes : RawVm → RawVm → Prop where
  | last {raw raw' : RawVm} : raw.step? = some raw' → raw'.status.isHalted = true →
      Executes raw raw'
  | next {raw raw' raw'' : RawVm} : raw.step? = some raw' → raw'.status.isHalted = false →
      Executes raw' raw'' → Executes raw raw''

/-- What a call comes to. -/
def Performs (raw : RawVm) : Vm.Call → RawVm → Prop
  | .load code, raw' => raw' = raw.load code
  | .run code, raw' => (raw.load code).Executes raw'
  | .execute, raw' => raw.Executes raw'
  | .runSteps count, raw' => raw.runSteps? count = some raw'

/-- What calls come to, one after the other. -/
def PerformsAll (raw : RawVm) : List Vm.Call → RawVm → Prop
  | [], raw' => raw' = raw
  | call :: calls, raw'' => ∃ raw', raw.Performs call raw' ∧ raw'.PerformsAll calls raw''

end RawVm

/-! ## What lies in memory -/

structure RawStack.Represents (raw : RawStack) (stack : OperandStack) : Prop where
  capacity_eq : raw.buffer.length = stack.capacity
  position_eq : raw.position = stack.position
  bytes_eq : raw.buffer.take raw.position = stack.bytes
  widths_eq : raw.widths = stack.widths

structure RawVm.Represents (raw : RawVm) (vm : Vm) : Prop where
  code_eq : raw.code = vm.code
  pc_eq : raw.pc = vm.pc
  stack : raw.stack.Represents vm.stack
  store_eq : raw.store = vm.store
  status_eq : raw.status = vm.status

/-- The raw machine came to a result, which is the given machine in memory. -/
def RawVm.Yields (result : Option RawVm) (vm : Vm) : Prop :=
  ∃ raw, result = some raw ∧ raw.Represents vm

theorem VariableStore.write?_eq (store : VariableStore) (slot : Nat) (value : Bytes) :
    store.write? slot value = some (store.write slot value) := by
  unfold write? write
  by_cases hslot : slot < store.size
  · have hgrow : slot + 1 - store.size = 0 := by omega
    have hlen : slot < store.slots.length := hslot
    simp only [if_pos hslot, if_pos hlen, hgrow, List.replicate_zero, List.append_nil]
  · have hlen : slot <
        (store.slots ++ List.replicate (slot + 1 - store.size) none).length := by
      simp only [List.length_append, List.length_replicate, size]
      omega
    simp only [if_neg hslot, if_pos hlen]

namespace RawStack.Represents

variable {raw : RawStack} {stack : OperandStack}

theorem ofCapacity (capacity : Nat) :
    (RawStack.ofCapacity capacity).Represents (OperandStack.ofCapacity capacity) :=
  ⟨List.length_replicate, rfl, rfl, rfl⟩

theorem clear (h : raw.Represents stack) : raw.clear.Represents stack.clear :=
  ⟨h.capacity_eq, rfl, rfl, rfl⟩

theorem push? (h : raw.Represents stack) (value : Bytes) :
    (∃ fault, raw.push? value = some (.error fault) ∧ stack.push value = .error fault) ∨
      ∃ raw' stack', raw.push? value = some (.ok raw') ∧ stack.push value = .ok stack' ∧
        raw'.Represents stack' := by
  unfold RawStack.push? OperandStack.push
  rw [h.capacity_eq, h.position_eq]
  by_cases hfull : stack.capacity < stack.position + value.length
  · simp only [if_pos hfull]
    exact .inl ⟨_, rfl, rfl⟩
  · have hfits : stack.position + value.length ≤ raw.buffer.length := by
      rw [h.capacity_eq]
      exact Nat.le_of_not_lt hfull
    have htake : raw.buffer.take stack.position = stack.bytes := h.position_eq ▸ h.bytes_eq
    simp only [if_neg hfull, Bytes.overwrite?, if_pos hfits]
    refine .inr ⟨_, _, rfl, rfl, ?_, ?_, ?_, ?_⟩
    · simp only [List.length_append, List.length_take, List.length_drop, h.capacity_eq] at hfits ⊢
      omega
    · exact (List.length_append).symm
    · rw [htake]
      exact List.take_left' List.length_append
    · rw [h.widths_eq]

theorem position_le (h : raw.Represents stack) : raw.position ≤ raw.buffer.length := by
  have hlength := congrArg List.length h.bytes_eq
  rw [List.length_take, ← OperandStack.position, ← h.position_eq] at hlength
  omega

/-- The topmost bytes are read from inside the buffer. -/
theorem slice?_eq (h : raw.Represents stack) {width : Nat} (hwidth : width ≤ raw.position) :
    raw.buffer.slice? (raw.position - width) width = stack.bytes.last? width := by
  have hwhole : raw.position - width + width = raw.position := by omega
  rw [← h.bytes_eq, Bytes.slice?, hwhole, if_pos h.position_le, Bytes.last?,
    List.length_take_of_le h.position_le, if_pos hwidth, List.drop_take, Nat.sub_sub_self hwidth]

/-- In memory, a value is found under the same conditions. The width is asserted, and where it is
wrong there is no result. -/
theorem pop?_cases (h : raw.Represents stack) (width : Nat) :
    (∃ fault, raw.pop? width = some (.error fault) ∧ stack.pop width = .error (.fault fault)) ∨
      (raw.pop? width = none ∧ stack.pop width = .error (.widthMismatch width)) ∨
      ∃ value raw' stack', raw.pop? width = some (.ok (value, raw')) ∧
        stack.pop width = .ok (value, stack') ∧ raw'.Represents stack' := by
  have hposition : stack.bytes.length = raw.position := h.position_eq.symm
  by_cases hlt : raw.position < width
  · refine .inl ⟨.stackUnderflow width raw.position, ?_, ?_⟩
    · rw [RawStack.pop?, if_pos hlt]
    · rw [OperandStack.pop, Bytes.last?, hposition, if_neg (Nat.not_le.mpr hlt), ← h.position_eq]
  · have hle := Nat.le_of_not_lt hlt
    have hlast : stack.bytes.last? width = some (stack.bytes.drop (raw.position - width)) := by
      rw [Bytes.last?, hposition, if_pos hle]
    by_cases hassert : stack.widths.head? = some width
    · refine .inr (.inr ⟨stack.bytes.drop (raw.position - width),
        ⟨raw.buffer, raw.position - width, raw.widths.tail⟩,
        ⟨stack.capacity, stack.bytes.take (stack.position - width), stack.widths.tail⟩, ?_, ?_, ?_⟩)
      · simp only [RawStack.pop?, if_neg hlt, h.widths_eq, if_pos hassert, h.slice?_eq hle, hlast]
        rfl
      · simp only [OperandStack.pop, hlast, if_pos hassert]
      · refine ⟨h.capacity_eq, ?_, ?_, congrArg List.tail h.widths_eq⟩
        · simp only [OperandStack.position, List.length_take, hposition]
          omega
        · rw [← h.bytes_eq, ← h.position_eq, List.take_take, Nat.min_eq_left (Nat.sub_le _ _)]
    · refine .inr (.inl ⟨?_, ?_⟩)
      · rw [RawStack.pop?, if_neg hlt, h.widths_eq, if_neg hassert]
      · simp only [OperandStack.pop, hlast, if_neg hassert]

/-- Where whole cells lie in memory, a cell is taken, unless there is none. -/
theorem pop? (h : raw.Represents stack) (hsound : stack.Sound) :
    (∃ fault, raw.pop? Cell.width = some (.error fault) ∧
        stack.pop Cell.width = .error (.fault fault)) ∨
      ∃ value raw', raw.pop? Cell.width = some (.ok (value, raw')) ∧
        stack.pop Cell.width = .ok (value, stack.belowTop) ∧ raw'.Represents stack.belowTop ∧
        stack.belowTop.Sound := by
  rcases h.pop?_cases Cell.width with
    hfault | ⟨_, hmismatch⟩ | ⟨value, raw', stack', hraw, hstack, hrep⟩
  · exact .inl hfault
  · rcases hsound.pop with ⟨_, hpop⟩ | ⟨_, hpop, _⟩
    · rw [hpop] at hmismatch
      cases hmismatch
    · rw [hpop] at hmismatch
      cases hmismatch
  · rcases hsound.pop with ⟨_, hpop⟩ | ⟨_, hpop, _, _, _, hbelow⟩
    · rw [hpop] at hstack
      cases hstack
    · rw [hpop] at hstack
      cases hstack
      exact .inr ⟨value, raw', hraw, hpop, hrep, hbelow⟩

end RawStack.Represents

namespace RawVm.Represents

variable {raw : RawVm} {vm : Vm}

theorem new (stackSize : Option Nat) : (RawVm.new stackSize).Represents (Vm.new stackSize) :=
  ⟨rfl, rfl, .ofCapacity _, rfl, rfl⟩

theorem load (h : raw.Represents vm) (code : Bytes) : (raw.load code).Represents (vm.load code) :=
  ⟨rfl, rfl, h.stack.clear, rfl, rfl⟩

theorem halt (h : raw.Represents vm) (halt : Halt) : (raw.halt halt).Represents (vm.halt halt) :=
  ⟨h.code_eq, h.pc_eq, h.stack, h.store_eq, rfl⟩

theorem pushCell? (h : raw.Represents vm) (cell : Cell) (next : Nat) :
    Yields (raw.pushCell? cell next) (vm.pushCell cell next) := by
  rcases h.stack.push? cell.toBytes with ⟨fault, hraw, hpush⟩ | ⟨raw', stack', hraw, hpush, hrep⟩
  · simp only [RawVm.pushCell?, hraw, Vm.pushCell, hpush]
    exact ⟨_, rfl, h.halt _⟩
  · simp only [RawVm.pushCell?, hraw, Vm.pushCell, hpush]
    exact ⟨_, rfl, h.code_eq, rfl, hrep, h.store_eq, h.status_eq⟩

theorem popCell? (h : raw.Represents vm) (hsound : vm.Sound) {use? : RawVm → Cell → Option RawVm}
    {use : Vm → Cell → Vm}
    (huse : ∀ {raw' : RawVm} {vm' : Vm} (cell : Cell), raw'.Represents vm' → vm'.Sound →
      Yields (use? raw' cell) (use vm' cell)) :
    Yields (raw.popCell? use?) (vm.popCell use) := by
  rcases h.stack.pop? hsound.stack with
    ⟨fault, hraw, hpop⟩ | ⟨value, raw', hraw, hpop, hrep, hbelow⟩
  · simp only [RawVm.popCell?, hraw, Vm.popCell, hpop]
    exact ⟨_, rfl, h.halt _⟩
  · simp only [RawVm.popCell?, hraw, Vm.popCell, hpop]
    exact huse _ ⟨h.code_eq, h.pc_eq, hrep, h.store_eq, h.status_eq⟩
      ⟨hbelow, hsound.store, hsound.pc_le, hsound.not_aborted⟩

theorem unary? (h : raw.Represents vm) (hsound : vm.Sound) (op : Cell → Cell) (next : Nat) :
    Yields (raw.unary? op next) (vm.unary op next) :=
  h.popCell? hsound fun a h' _ => h'.pushCell? (op a) next

theorem binary? (h : raw.Represents vm) (hsound : vm.Sound)
    (op : Cell → Cell → Except Fault Cell) (next : Nat) :
    Yields (raw.binary? op next) (vm.binary op next) := by
  refine h.popCell? hsound fun a h' hsound' => h'.popCell? hsound' fun b h'' _ => ?_
  cases hop : op b a with
  | error fault => exact ⟨_, rfl, h''.halt _⟩
  | ok cell => exact h''.pushCell? cell next

/-- An instruction that does not lie inside the code is cut off. -/
theorem exec_of_truncated {op : Opcode} (hpc : vm.pc < vm.code.length)
    (hlong : vm.code.length < vm.pc + 1 + op.operandSize) :
    vm.exec op = vm.halt (.fault (.truncatedInstruction vm.pc (some op))) := by
  cases op with
  | constInt =>
      have hread : Cell.read? vm.code (vm.pc + 1) = none := by
        have hout : ¬ vm.pc + 1 + Cell.width ≤ vm.code.length := Nat.not_le.mpr hlong
        rw [Cell.read?, Bytes.slice?, if_neg hout, Option.map_none]
      simp only [Vm.exec, hread]
  | store | load =>
      have hread : vm.code[vm.pc + 1]? = none :=
        List.getElem?_eq_none (Nat.le_of_lt_succ hlong)
      simp only [Vm.exec, hread]
  | add | sub | mul | div | mod | intToFloat | floatToInt =>
      exact absurd hpc (Nat.not_lt.mpr (Nat.le_of_lt_succ hlong))

theorem exec? (h : raw.Represents vm) (hsound : vm.Sound) (hpc : vm.pc < vm.code.length)
    (op : Opcode) : Yields (raw.exec? op) (vm.exec op) := by
  by_cases hlong : vm.code.length < vm.pc + 1 + op.operandSize
  · rw [exec_of_truncated hpc hlong]
    simp only [RawVm.exec?, h.code_eq, h.pc_eq, if_pos hlong]
    exact ⟨_, rfl, h.halt _⟩
  · cases op with
    | constInt =>
        simp only [RawVm.exec?, h.code_eq, h.pc_eq, if_neg hlong, Vm.exec]
        cases Cell.read? vm.code (vm.pc + 1) with
        | none => exact ⟨_, rfl, h.halt _⟩
        | some value => exact h.pushCell? value _
    | store =>
        simp only [RawVm.exec?, h.code_eq, h.pc_eq, if_neg hlong, Vm.exec]
        cases vm.code[vm.pc + 1]? with
        | none => exact ⟨_, rfl, h.halt _⟩
        | some slot =>
            refine h.popCell? hsound fun cell h' _ => ?_
            simp only [VariableStore.write?_eq, h'.store_eq]
            exact ⟨_, rfl, h'.code_eq, rfl, h'.stack, rfl, h'.status_eq⟩
    | load =>
        simp only [RawVm.exec?, h.code_eq, h.pc_eq, if_neg hlong, Vm.exec, h.store_eq]
        cases vm.code[vm.pc + 1]? with
        | none => exact ⟨_, rfl, h.halt _⟩
        | some slot => exact h.pushCell? _ _
    | add | sub | mul | div | mod =>
        simp only [RawVm.exec?, h.code_eq, h.pc_eq, if_neg hlong, Vm.exec]
        exact h.binary? hsound _ _
    | intToFloat | floatToInt =>
        simp only [RawVm.exec?, h.code_eq, h.pc_eq, if_neg hlong, Vm.exec]
        exact h.unary? hsound _ _

theorem step? (h : raw.Represents vm) (hsound : vm.Sound) : Yields raw.step? vm.step := by
  unfold RawVm.step? Vm.step
  rw [h.status_eq, h.code_eq, h.pc_eq]
  cases vm.status with
  | halted halt => exact ⟨raw, rfl, h⟩
  | running =>
      by_cases hpc : vm.pc < vm.code.length
      · simp only [if_neg (Nat.not_le.mpr hpc), List.getElem?_eq_getElem hpc, Option.bind_eq_bind,
          Option.bind_some]
        cases Opcode.ofByte? vm.code[vm.pc] with
        | none => exact ⟨_, rfl, h.halt _⟩
        | some op => exact h.exec? hsound hpc op
      · have hend := Nat.le_of_not_lt hpc
        simp only [if_pos hend, List.getElem?_eq_none hend]
        exact ⟨_, rfl, h.halt _⟩

/-! ## Calls -/

theorem executes (h : raw.Represents vm) (hsound : vm.Sound) :
    ∃ raw', raw.Executes raw' ∧ raw'.Represents vm.execute := by
  fun_induction Vm.execute vm generalizing raw with
  | case1 vm halt hstatus =>
      obtain ⟨raw', hstep, h'⟩ := h.step? hsound
      have hhalted : raw'.status.isHalted = true := by rw [h'.status_eq, hstatus]; rfl
      exact ⟨raw', .last hstep hhalted, h'⟩
  | case2 vm hstatus _ ih =>
      obtain ⟨raw', hstep, h'⟩ := h.step? hsound
      have hrunning : raw'.status.isHalted = false := by rw [h'.status_eq, hstatus]; rfl
      obtain ⟨raw'', hrest, h''⟩ := ih h' hsound.step
      exact ⟨raw'', .next hstep hrunning hrest, h''⟩

theorem runSteps? (h : raw.Represents vm) (hsound : vm.Sound) (count : Nat) :
    Yields (raw.runSteps? count) (vm.runSteps count) := by
  induction count generalizing raw vm with
  | zero => exact ⟨raw, rfl, h⟩
  | succ count ih =>
      rw [RawVm.runSteps?, Vm.runSteps, h.status_eq]
      split
      · exact ⟨raw, rfl, h⟩
      · obtain ⟨raw', hstep, h'⟩ := h.step? hsound
        rw [hstep]
        exact ih h' hsound.step

theorem performs (h : raw.Represents vm) (hsound : vm.Sound) (call : Vm.Call) :
    ∃ raw', raw.Performs call raw' ∧ raw'.Represents (vm.perform call) := by
  cases call with
  | load code => exact ⟨_, rfl, h.load code⟩
  | run code => exact (h.load code).executes (.load vm code)
  | execute => exact h.executes hsound
  | runSteps count => exact h.runSteps? hsound count

theorem performsAll (h : raw.Represents vm) (hsound : vm.Sound) (calls : List Vm.Call) :
    ∃ raw', raw.PerformsAll calls raw' ∧ raw'.Represents (vm.performAll calls) := by
  induction calls generalizing raw vm with
  | nil => exact ⟨raw, rfl, h⟩
  | cons call calls ih =>
      obtain ⟨raw', hperform, h'⟩ := h.performs hsound call
      obtain ⟨raw'', hrest, h''⟩ := ih h' (hsound.perform call)
      exact ⟨raw'', ⟨raw', hperform, hrest⟩, h''⟩

end RawVm.Represents

/-- Whatever bytes a machine is given, in whatever calls: its stack holds whole cells within the
capacity and beside them their widths, the program counter stays within the code, and the store
holds cells in at most 256 slots. In raw memory the calls come to an end as well: nothing is read or
written out of range, and no value is popped with a wrong width. -/
theorem Vm.performAll_sound (stackSize : Option Nat) (calls : List Call) :
    ((Vm.new stackSize).performAll calls).Sound ∧
      ∃ raw, (RawVm.new stackSize).PerformsAll calls raw ∧
        raw.Represents ((Vm.new stackSize).performAll calls) :=
  ⟨Vm.Reachable.sound ⟨stackSize, calls, rfl⟩,
    RawVm.Represents.performsAll (.new stackSize) (.new stackSize) calls⟩

end StackScript
