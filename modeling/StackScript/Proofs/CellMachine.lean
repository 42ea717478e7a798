import StackScript.Machine.Vm

/-! # The machine on cells

The machine as its instructions see it: a stack of cells and a cell for each slot that was written.
The machine on bytes takes the same steps, one for each instruction of the assembled code. -/

namespace StackScript

/-! ## Steps on cells -/

/-- A running machine. The topmost cell of the stack comes first. -/
structure Cells where
  pc : Nat := 0
  stack : List Cell := []
  store : UInt8 → Option Cell := fun _ => none

namespace Cells

/-- Steps end in a machine that goes on, or in a fault and the machine that it stopped. -/
abbrev Step (α : Type) := Except (Fault × Cells) α

/-- Push a cell and go on at `next`. The capacity of the stack is in bytes. -/
def push (capacity next : Nat) (cell : Cell) (s : Cells) : Step Cells :=
  if capacity < Cell.width * s.stack.length + Cell.width then
    .error (.stackOverflow Cell.width (Cell.width * s.stack.length) capacity, s)
  else .ok { s with stack := cell :: s.stack, pc := next }

def pop (s : Cells) : Step (Cell × Cells) :=
  match s.stack with
  | [] => .error (.stackUnderflow Cell.width 0, s)
  | cell :: rest => .ok (cell, { s with stack := rest })

def unary (capacity next : Nat) (op : Cell → Cell) (s : Cells) : Step Cells := do
  let (a, s) ← s.pop
  s.push capacity next (op a)

/-- The deeper cell is the left operand. Where there is no result, the operands are gone. -/
def binary (capacity next : Nat) (op : Cell → Cell → Option Cell) (s : Cells) : Step Cells := do
  let (a, s) ← s.pop
  let (b, s) ← s.pop
  match op b a with
  | none => .error (.divideByZero s.pc, s)
  | some cell => s.push capacity next cell

/-- A quotient or remainder; there is none by zero. -/
def unlessZero (op : Cell → Cell → Cell) (b a : Cell) : Option Cell :=
  if a = 0 then none else some (op b a)

/-- Execute an instruction. A slot that was never written holds zero. -/
def act (capacity : Nat) (s : Cells) (i : Instr) : Step Cells :=
  let next := s.pc + i.size
  match i with
  | .constInt value => s.push capacity next value
  | .store slot => do
      let (cell, s) ← s.pop
      return { s with pc := next, store := fun x => if x = slot then some cell else s.store x }
  | .load slot => s.push capacity next ((s.store slot).getD 0)
  | .add => s.binary capacity next fun b a => some (b + a)
  | .sub => s.binary capacity next fun b a => some (b - a)
  | .mul => s.binary capacity next fun b a => some (b * a)
  | .div => s.binary capacity next (unlessZero BitVec.sdiv)
  | .mod => s.binary capacity next (unlessZero BitVec.srem)
  | .intToFloat => s.unary capacity next Binary32.ofIntCell
  | .floatToInt => s.unary capacity next Binary32.toIntCell

/-- Execute code up to its end or to the first fault. -/
def run (capacity : Nat) (code : List Instr) (s : Cells) : Step Cells :=
  code.foldlM (act capacity) s

theorem run_cons (capacity : Nat) (s : Cells) (i : Instr) (code : List Instr) :
    s.run capacity (i :: code) = s.act capacity i >>= fun s' => s'.run capacity code :=
  List.foldlM_cons

theorem run_append (capacity : Nat) (s : Cells) (xs ys : List Instr) :
    s.run capacity (xs ++ ys) = s.run capacity xs >>= fun s' => s'.run capacity ys :=
  List.foldlM_append

theorem run_singleton (capacity : Nat) (s : Cells) (i : Instr) :
    s.run capacity [i] = s.act capacity i := by
  rw [run_cons]
  cases s.act capacity i <;> rfl

end Cells

/-! ## The effect of a step -/

namespace Instr

/-- Number of cells that an instruction takes from the stack. -/
def pops : Instr → Nat
  | constInt _ | load _ => 0
  | store _ | intToFloat | floatToInt => 1
  | add | sub | mul | div | mod => 2

/-- Number of cells that an instruction leaves on the stack. -/
def pushes : Instr → Nat
  | store _ => 0
  | constInt _ | load _ | add | sub | mul | div | mod | intToFloat | floatToInt => 1

end Instr

namespace Cells

/-- A step goes on at `next` with the given numbers of cells taken and left. It faults at a zero
divisor, at a full stack, or where there are too few cells to take. -/
def Moves (s : Cells) (next pops pushes : Nat) : Step Cells → Prop
  | .ok s' => s'.pc = next ∧ pops ≤ s.stack.length ∧
      s'.stack.length + pops = s.stack.length + pushes
  | .error (.divideByZero _, _) | .error (.stackOverflow .., _) => True
  | .error (.stackUnderflow .., _) => s.stack.length < pops
  | .error _ => False

variable {capacity next pops pushes : Nat} {s : Cells}

theorem moves_push (cell : Cell) : s.Moves next 0 1 (s.push capacity next cell) := by
  unfold push
  split
  · trivial
  · exact ⟨rfl, Nat.zero_le _, rfl⟩

theorem moves_pop {rest : Cell × Cells → Step Cells}
    (h : ∀ cell (s' : Cells), s'.Moves next pops pushes (rest (cell, s'))) :
    s.Moves next (pops + 1) pushes (s.pop >>= rest) := by
  obtain ⟨pc, stack, store⟩ := s
  cases stack with
  | nil => exact Nat.succ_pos pops
  | cons cell cells =>
      have hrest := h cell ⟨pc, cells, store⟩
      have hpop : pop ⟨pc, cell :: cells, store⟩ >>= rest = rest (cell, ⟨pc, cells, store⟩) := rfl
      rw [hpop]
      rcases hresult : rest (cell, ⟨pc, cells, store⟩) with ⟨fault, s'⟩ | s'
      · rw [hresult] at hrest
        cases fault with
        | stackUnderflow => exact Nat.succ_lt_succ hrest
        | _ => exact hrest
      · rw [hresult] at hrest
        obtain ⟨hpc, hpops, hlen⟩ := hrest
        refine ⟨hpc, Nat.succ_le_succ hpops, ?_⟩
        simp only [List.length_cons] at hlen ⊢
        omega

theorem moves_unary (op : Cell → Cell) : s.Moves next 1 1 (s.unary capacity next op) :=
  moves_pop fun _ _ => moves_push _

theorem moves_binary (op : Cell → Cell → Option Cell) :
    s.Moves next 2 1 (s.binary capacity next op) := by
  refine moves_pop fun a s' => moves_pop fun b s'' => ?_
  simp only
  split
  · trivial
  · exact moves_push _

/-- What an instruction takes and leaves, whatever the cells. -/
theorem moves_act (i : Instr) : s.Moves (s.pc + i.size) i.pops i.pushes (s.act capacity i) := by
  cases i with
  | constInt value => exact moves_push value
  | load slot => exact moves_push _
  | store slot => exact moves_pop fun _ _ => ⟨rfl, Nat.zero_le _, rfl⟩
  | add | sub | mul | div | mod =>
      simp only [act]
      exact moves_binary _
  | intToFloat | floatToInt => exact moves_unary _

end Cells

/-! ## Cells in bytes -/

theorem LittleEndian.decode_encode (width n : Nat) :
    decode (encode width n) = n % Nat.pow 256 width := by
  induction width generalizing n with
  | zero => exact (Nat.mod_one n).symm
  | succ width ih =>
      have hbyte : (UInt8.ofNat (n % 256)).toNat = n % 256 :=
        UInt8.toNat_ofNat_of_lt' (Nat.mod_lt n (by decide))
      have hpow : Nat.pow 256 (width + 1) = 256 * Nat.pow 256 width := Nat.mul_comm _ _
      rw [encode, decode, ih, hbyte, hpow, Nat.mod_mul]

@[simp] theorem Cell.ofBytes_toBytes (cell : Cell) : ofBytes cell.toBytes = cell := by
  have hlt : cell.toNat < Nat.pow 256 width := cell.isLt
  rw [ofBytes, toBytes, LittleEndian.decode_encode, Nat.mod_eq_of_lt hlt, BitVec.ofNat_toNat,
    BitVec.setWidth_eq]

theorem Bytes.last?_append (xs ys : Bytes) : Bytes.last? (xs ++ ys) ys.length = some ys := by
  simp [last?]

theorem VariableStore.get?_write (store : VariableStore) (slot other : Nat) (value : Bytes) :
    (store.write slot value).get? other =
      if other = slot then some value else store.get? other := by
  have hlen : slot < (store.slots ++ List.replicate (slot + 1 - store.size) none).length := by
    simp only [List.length_append, List.length_replicate, size]
    omega
  by_cases hother : other = slot
  · subst hother
    simp [get?, write, List.getElem?_set_self hlen]
  · rw [if_neg hother, get?, get?, write, List.getElem?_set_ne (Ne.symm hother),
      List.getElem?_append]
    split
    · rfl
    · rename_i hge
      rw [List.getElem?_eq_none (Nat.le_of_not_lt hge), List.getElem?_replicate]
      split <;> rfl

/-- A machine on bytes that runs the code and holds the cells. -/
structure Vm.Holds (vm : Vm) (code : Bytes) (capacity : Nat) (s : Cells) : Prop where
  code_eq : vm.code = code
  capacity_eq : vm.stack.capacity = capacity
  running : vm.status = .running
  pc_eq : vm.pc = s.pc
  bytes_eq : vm.stack.bytes = s.stack.reverse.flatMap Cell.toBytes
  widths_eq : vm.stack.widths = s.stack.map fun _ => Cell.width
  store_eq : ∀ slot : UInt8, vm.store.get? slot.toNat = (s.store slot).map Cell.toBytes

/-- A machine on bytes came to the end of a step on cells. -/
def Vm.Reaches (vm : Vm) (code : Bytes) (capacity : Nat) : Cells.Step Cells → Prop
  | .ok s => vm.Holds code capacity s
  | .error (fault, s) => ∃ vm' : Vm, vm'.Holds code capacity s ∧ vm = vm'.halt (.fault fault)

namespace Vm.Holds

variable {vm : Vm} {code : Bytes} {capacity : Nat} {s : Cells}

theorem position_eq (h : vm.Holds code capacity s) :
    vm.stack.position = Cell.width * s.stack.length := by
  rw [OperandStack.position, h.bytes_eq]
  induction s.stack with
  | nil => rfl
  | cons cell rest ih => simp [ih, Cell.width]; omega

/-- What a slot holds is read as it was written; zero is read where nothing was. -/
theorem read?_elim (h : vm.Holds code capacity s) (slot : UInt8) :
    (vm.store.read? slot.toNat Cell.width).elim 0 Cell.ofBytes = (s.store slot).getD 0 := by
  rw [VariableStore.read?, h.store_eq]
  cases s.store slot with
  | none => rfl
  | some cell => simp [Option.filter, Cell.width]

theorem pushCell (h : vm.Holds code capacity s) (cell : Cell) (next : Nat) :
    (vm.pushCell cell next).Reaches code capacity (s.push capacity next cell) := by
  have hlen : cell.toBytes.length = Cell.width := Cell.length_toBytes cell
  by_cases hfull : capacity < Cell.width * s.stack.length + Cell.width
  · have hpush : vm.stack.push cell.toBytes =
        .error (.stackOverflow Cell.width (Cell.width * s.stack.length) capacity) := by
      rw [OperandStack.push, h.capacity_eq, h.position_eq, hlen, if_pos hfull]
    rw [Vm.pushCell, hpush, Cells.push, if_pos hfull]
    exact ⟨vm, h, rfl⟩
  · have hpush : vm.stack.push cell.toBytes = .ok { vm.stack with
        bytes := vm.stack.bytes ++ cell.toBytes, widths := Cell.width :: vm.stack.widths } := by
      rw [OperandStack.push, h.capacity_eq, h.position_eq, hlen, if_neg hfull, ← h.capacity_eq]
    rw [Vm.pushCell, hpush, Cells.push, if_neg hfull]
    exact ⟨h.code_eq, h.capacity_eq, h.running, rfl, by simp [h.bytes_eq], by simp [h.widths_eq],
      h.store_eq⟩

theorem popCell (h : vm.Holds code capacity s) {use : Vm → Cell → Vm}
    {next : Cell × Cells → Cells.Step Cells}
    (huse : ∀ {vm' : Vm} {s' : Cells} (cell : Cell), vm'.Holds code capacity s' → s'.pc = s.pc →
      (use vm' cell).Reaches code capacity (next (cell, s'))) :
    (vm.popCell use).Reaches code capacity (s.pop >>= next) := by
  obtain ⟨pc, stack, store⟩ := s
  cases stack with
  | nil =>
      have hempty : vm.stack.bytes = [] := h.bytes_eq
      refine ⟨vm, h, ?_⟩
      simp [Vm.popCell, OperandStack.pop, OperandStack.position, hempty, Bytes.last?, Cell.width]
  | cons cell rest =>
      have hbytes : vm.stack.bytes = rest.reverse.flatMap Cell.toBytes ++ cell.toBytes := by
        simp [h.bytes_eq]
      have hlast : vm.stack.bytes.last? Cell.width = some cell.toBytes := by
        rw [hbytes]
        exact Bytes.last?_append _ _
      have htake : vm.stack.bytes.take (vm.stack.bytes.length - Cell.width) =
          rest.reverse.flatMap Cell.toBytes := by
        simp [hbytes, Cell.width]
      have hwidths : vm.stack.widths = Cell.width :: rest.map fun _ => Cell.width := h.widths_eq
      have hpop : vm.stack.pop Cell.width = .ok (cell.toBytes, { vm.stack with
          bytes := rest.reverse.flatMap Cell.toBytes
          widths := rest.map fun _ => Cell.width }) := by
        simp [OperandStack.pop, OperandStack.position, hlast, htake, hwidths]
      simp only [Vm.popCell, hpop, Cell.ofBytes_toBytes]
      exact huse cell ⟨h.code_eq, h.capacity_eq, h.running, h.pc_eq, rfl, rfl, h.store_eq⟩ rfl

theorem unary (h : vm.Holds code capacity s) (op : Cell → Cell) (next : Nat) :
    (vm.unary op next).Reaches code capacity (s.unary capacity next op) :=
  h.popCell fun a h' _ => h'.pushCell (op a) next

theorem binary (h : vm.Holds code capacity s) {op : Cell → Cell → Except Fault Cell}
    {op' : Cell → Cell → Option Cell}
    (hop : ∀ b a, op b a = (op' b a).elim (.error (.divideByZero s.pc)) .ok) (next : Nat) :
    (vm.binary op next).Reaches code capacity (s.binary capacity next op') := by
  refine h.popCell fun a h' hpc => h'.popCell fun b h'' hpc' => ?_
  rename_i vm' s' vm'' s''
  cases hresult : op' b a with
  | none =>
      simp only [hop, hresult, Option.elim_none]
      exact ⟨vm'', h'', by rw [hpc', hpc]⟩
  | some cell =>
      simp only [hop, hresult, Option.elim_some]
      exact h''.pushCell cell next

/-! ## Steps on bytes -/

/-- The machine on bytes executes the instruction whose operand it reads in place. -/
theorem exec (h : vm.Holds code capacity s) {op : Opcode} {i : Instr}
    (hi : Instr.ofOpcode? code (s.pc + 1) op = some i) :
    (vm.exec op).Reaches code capacity (s.act capacity i) := by
  cases op with
  | constInt =>
      obtain ⟨value, hvalue, rfl⟩ := Option.map_eq_some_iff.mp hi
      simp only [Vm.exec, h.code_eq, h.pc_eq, hvalue]
      exact h.pushCell value _
  | store =>
      obtain ⟨slot, hslot, rfl⟩ := Option.map_eq_some_iff.mp hi
      simp only [Vm.exec, h.code_eq, h.pc_eq, hslot]
      refine h.popCell fun cell h' _ => ?_
      refine ⟨h'.code_eq, h'.capacity_eq, h'.running, rfl, h'.bytes_eq, h'.widths_eq, ?_⟩
      intro x
      rw [VariableStore.get?_write, h'.store_eq]
      by_cases hx : x = slot
      · simp [hx]
      · simp [hx, UInt8.toNat_inj]
  | load =>
      obtain ⟨slot, hslot, rfl⟩ := Option.map_eq_some_iff.mp hi
      simp only [Vm.exec, h.code_eq, h.pc_eq, hslot, h.read?_elim]
      exact h.pushCell _ _
  | add | sub | mul =>
      cases hi
      simp only [Vm.exec, h.pc_eq, Cells.act]
      exact h.binary (fun _ _ => rfl) _
  | div | mod =>
      cases hi
      simp only [Vm.exec, h.pc_eq, Cells.act]
      refine h.binary (fun b a => ?_) _
      simp only [Vm.unlessZero, Cells.unlessZero]
      split <;> rfl
  | intToFloat | floatToInt =>
      cases hi
      simp only [Vm.exec, h.pc_eq, Cells.act]
      exact h.unary _ _

/-- The machine on bytes executes the instruction that is decoded at its program counter. -/
theorem step (h : vm.Holds code capacity s) {i : Instr} {n : Nat}
    (hi : Instr.decode code s.pc = .ok (i, n)) :
    vm.step.Reaches code capacity (s.act capacity i) := by
  unfold Instr.decode at hi
  split at hi
  · cases hi
  · rename_i byte hbyte
    split at hi
    · cases hi
    · rename_i op hop
      split at hi
      · cases hi
      · rename_i j hj
        cases hi
        have hstep : vm.step = vm.exec op := by
          simp only [Vm.step, h.running, h.code_eq, h.pc_eq, hbyte, hop]
        rw [hstep]
        exact h.exec hj

end Vm.Holds

/-! ## Runs -/

theorem Bytes.slice?_append (xs ys zs : Bytes) :
    Bytes.slice? (xs ++ (ys ++ zs)) xs.length ys.length = some ys := by
  simp [slice?]

/-- Between other code, an instruction is decoded from its encoding. -/
theorem Instr.decode_append (before behind : Bytes) (i : Instr) :
    decode (before ++ (i.encode ++ behind)) before.length = .ok (i, i.size) := by
  have hbyte : (before ++ (i.encode ++ behind))[before.length]? = some i.opcode.toByte := by
    simp [encode]
  have hoperand : ofOpcode? (before ++ (i.encode ++ behind)) (before.length + 1) i.opcode =
      some i := by
    cases i with
    | constInt value =>
        have hread := Bytes.slice?_append (before ++ [Opcode.constInt.toByte]) value.toBytes behind
        simp only [List.length_append, List.length_singleton, List.append_assoc,
          List.singleton_append, Cell.length_toBytes] at hread
        simp [ofOpcode?, opcode, encode, operandBytes, Cell.read?, Cell.width, hread]
    | store slot | load slot => simp [ofOpcode?, opcode, encode, operandBytes]
    | _ => rfl
  simp only [decode, hbyte, Opcode.ofByte?_toByte, hoperand]
  rfl

namespace Vm.Holds

variable {vm : Vm} {before : Bytes} {i : Instr} {rest : List Instr} {capacity : Nat} {s s' : Cells}

/-- In front of assembled instructions, the machine on bytes executes the first one. -/
theorem step_cons (h : vm.Holds (before ++ assemble (i :: rest)) capacity s)
    (hpc : s.pc = before.length) :
    vm.step.Reaches (before ++ assemble (i :: rest)) capacity (s.act capacity i) := by
  refine h.step (n := i.size) ?_
  rw [hpc]
  exact Instr.decode_append before (assemble rest) i

/-- Unless it faults, it stands in front of the others then. -/
theorem step_cons_of_act (h : vm.Holds (before ++ assemble (i :: rest)) capacity s)
    (hpc : s.pc = before.length) (hact : s.act capacity i = .ok s') :
    vm.step.Holds (before ++ i.encode ++ assemble rest) capacity s' ∧
      s'.pc = (before ++ i.encode).length := by
  have hstep := h.step_cons hpc
  have hmoves : s.Moves _ _ _ (s.act capacity i) := Cells.moves_act i
  rw [hact] at hstep hmoves
  rw [List.append_assoc, List.length_append, Instr.length_encode, hmoves.1, hpc]
  exact ⟨hstep, rfl⟩

end Vm.Holds

/-- How a run ends, and the machine at its end. -/
def Cells.final : Step Cells → Halt × Cells
  | .ok s => (.normal, s)
  | .error (fault, s) => (.fault fault, s)

theorem Vm.execute_of_running {vm : Vm} (h : vm.step.status = .running) :
    vm.execute = vm.step.execute := by
  rw [execute]
  split
  · rename_i hhalt
    rw [h] at hhalt
    cases hhalt
  · rfl

theorem Vm.execute_of_halted {vm : Vm} {halt : Halt} (h : vm.step.status = .halted halt) :
    vm.execute = vm.step := by
  rw [execute]
  split
  · rfl
  · rename_i hrunning
    rw [h] at hrunning
    cases hrunning

/-- Behind any code, the assembled instructions run as the instructions do. -/
theorem Vm.Holds.execute {vm : Vm} {before : Bytes} {instrs : List Instr} {capacity : Nat}
    {s : Cells} (h : vm.Holds (before ++ assemble instrs) capacity s)
    (hpc : s.pc = before.length) :
    ∃ vm' : Vm,
      vm'.Holds (before ++ assemble instrs) capacity (Cells.final (s.run capacity instrs)).2 ∧
        vm.execute = vm'.halt (Cells.final (s.run capacity instrs)).1 := by
  induction instrs generalizing before vm s with
  | nil =>
      have hend : vm.code[vm.pc]? = none := by
        rw [h.code_eq, h.pc_eq, hpc]
        simp [assemble]
      have hstep : vm.step = vm.halt .normal := by
        simp only [Vm.step, h.running, hend]
      refine ⟨vm, h, ?_⟩
      rw [Vm.execute_of_halted (by rw [hstep]; rfl), hstep]
      rfl
  | cons i instrs ih =>
      have hcode : before ++ assemble (i :: instrs) = before ++ i.encode ++ assemble instrs :=
        (List.append_assoc before i.encode (assemble instrs)).symm
      have hstep := h.step_cons hpc
      rw [Cells.run_cons]
      rcases hact : s.act capacity i with ⟨fault, s'⟩ | s'
      · rw [hact] at hstep
        obtain ⟨vm', hholds, hhalt⟩ := hstep
        refine ⟨vm', hholds, ?_⟩
        rw [Vm.execute_of_halted (by rw [hhalt]; rfl), hhalt]
        rfl
      · obtain ⟨hnext, hpc'⟩ := h.step_cons_of_act hpc hact
        rw [Vm.execute_of_running hnext.running, hcode]
        exact ih hnext hpc'

/-- A machine that is loaded with assembled instructions ends as the instructions do. -/
theorem Vm.run_assemble (vm : Vm) (instrs : List Instr) :
    ∃ vm' : Vm,
      vm'.Holds (assemble instrs) vm.stack.capacity
        (Cells.final (Cells.run vm.stack.capacity instrs {})).2 ∧
      vm.run (assemble instrs) =
        vm'.halt (Cells.final (Cells.run vm.stack.capacity instrs {})).1 := by
  have hload : (vm.load (assemble instrs)).Holds ([] ++ assemble instrs) vm.stack.capacity {} :=
    ⟨rfl, rfl, rfl, rfl, rfl, rfl, fun _ => rfl⟩
  exact hload.execute rfl

end StackScript
