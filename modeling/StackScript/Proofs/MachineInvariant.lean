import StackScript.Proofs.CellMachine

/-! # What the machine keeps

Whatever bytes a machine is given to run, its stack holds whole cells within its capacity, and its
store holds cells in at most 256 slots. This is kept by every step, and so by every call. -/

namespace StackScript

/-! ## Calls -/

namespace Vm

/-- What a host can ask of a machine. -/
inductive Call where
  | load (code : Bytes)
  | run (code : Bytes)
  | execute
  | runSteps (count : Nat)
  deriving DecidableEq, Repr

def perform (vm : Vm) : Call → Vm
  | .load code => vm.load code
  | .run code => vm.run code
  | .execute => vm.execute
  | .runSteps count => vm.runSteps count

def performAll (vm : Vm) (calls : List Call) : Vm := calls.foldl perform vm

/-- A machine that came out of some calls on a new one. -/
def Reachable (vm : Vm) : Prop := ∃ stackSize calls, vm = (Vm.new stackSize).performAll calls

section

variable {P : Vm → Prop} {vm : Vm}

theorem execute_keeps (hstep : ∀ vm, P vm → P vm.step) (h : P vm) : P vm.execute := by
  fun_induction execute vm with
  | case1 vm => exact hstep vm h
  | case2 vm _ _ ih => exact ih (hstep vm h)

theorem runSteps_keeps (hstep : ∀ vm, P vm → P vm.step) (h : P vm) (count : Nat) :
    P (vm.runSteps count) := by
  induction count generalizing vm with
  | zero => exact h
  | succ count ih =>
      rw [runSteps]
      split
      · exact h
      · exact ih (hstep vm h)

/-- What loading and single steps keep is kept by every call. -/
theorem perform_keeps (hload : ∀ vm code, P vm → P (vm.load code))
    (hstep : ∀ vm, P vm → P vm.step) (h : P vm) (call : Call) : P (vm.perform call) := by
  cases call with
  | load code => exact hload vm code h
  | run code => exact execute_keeps hstep (hload vm code h)
  | execute => exact execute_keeps hstep h
  | runSteps count => exact runSteps_keeps hstep h count

end

end Vm

/-! ## The stack -/

/-- Whole cells within the capacity, with their widths beside them. -/
structure OperandStack.Sound (stack : OperandStack) : Prop where
  position_le : stack.position ≤ stack.capacity
  aligned : 4 ∣ stack.position
  widths_eq : stack.widths = List.replicate (stack.position / 4) 4

namespace OperandStack

variable {stack : OperandStack}

theorem sound_of_empty (hbytes : stack.bytes = []) (hwidths : stack.widths = []) :
    stack.Sound := by
  have hposition : stack.position = 0 := by rw [position, hbytes, List.length_nil]
  refine ⟨?_, ?_, ?_⟩ <;> simp [hposition, hwidths]

theorem Sound.push (h : stack.Sound) {cell : Cell} {stack' : OperandStack}
    (hpush : stack.push cell.toBytes = .ok stack') : stack'.Sound := by
  unfold OperandStack.push at hpush
  split at hpush
  · cases hpush
  · rename_i hfits
    cases hpush
    rw [Cell.length_toBytes] at hfits
    have hposition : (stack.bytes ++ cell.toBytes).length = stack.position + 4 := by
      simp [position]
    refine ⟨?_, ?_, ?_⟩
    · rw [position, hposition]
      exact Nat.le_of_not_lt hfits
    · rw [position, hposition]
      exact Nat.dvd_add h.aligned (Nat.dvd_refl 4)
    · rw [position, hposition, Nat.add_div_right _ (by decide), List.replicate_succ, h.widths_eq,
        Cell.length_toBytes]

/-- The stack below its topmost cell. -/
def belowTop (stack : OperandStack) : OperandStack :=
  { stack with bytes := stack.bytes.take (stack.position - 4), widths := stack.widths.tail }

/-- From whole cells a cell is taken, unless there is none. -/
theorem Sound.pop (h : stack.Sound) :
    (stack.position = 0 ∧ stack.pop Cell.width = .error (.fault (.stackUnderflow Cell.width 0))) ∨
      ∃ value, stack.pop Cell.width = .ok (value, stack.belowTop) ∧
        stack.bytes.last? Cell.width = some value ∧ 4 ≤ stack.position ∧
        stack.widths.head? = some 4 ∧ stack.belowTop.Sound := by
  obtain ⟨hle, ⟨count, hcount⟩, hwidths⟩ := h
  cases count with
  | zero =>
      have hlength : stack.bytes.length = 0 := hcount
      refine .inl ⟨hcount, ?_⟩
      simp [OperandStack.pop, Bytes.last?, position, hlength, Cell.width]
  | succ count =>
      have hlength : stack.bytes.length = 4 * (count + 1) := hcount
      have hfour : 4 ≤ stack.bytes.length := by omega
      have hbelow : stack.belowTop.position = 4 * count := by
        simp only [position, belowTop, List.length_take, hlength]
        omega
      have hreplicate : stack.widths = 4 :: List.replicate count 4 := by
        rw [hwidths, hcount, Nat.mul_div_cancel_left _ (by decide), List.replicate_succ]
      refine .inr ⟨stack.bytes.drop (stack.bytes.length - 4), ?_, ?_, hfour, ?_, ?_, ?_, ?_⟩
      · simp [OperandStack.pop, belowTop, Bytes.last?, hfour, hreplicate, Cell.width]
      · simp [Bytes.last?, hfour, Cell.width]
      · rw [hreplicate, List.head?_cons]
      · rw [hbelow]
        exact Nat.le_trans (by omega) hle
      · rw [hbelow]
        exact Nat.dvd_mul_right 4 count
      · rw [hbelow, Nat.mul_div_cancel_left _ (by decide), belowTop, hreplicate, List.tail_cons]

end OperandStack

/-! ## The store -/

/-- Cells in slots whose numbers are bytes. -/
structure VariableStore.Sound (store : VariableStore) : Prop where
  size_le : store.size ≤ 256
  width_eq : ∀ slot value, store.get? slot = some value → value.length = 4

namespace VariableStore

theorem sound_empty : Sound {} := ⟨Nat.zero_le _, fun slot value h => by simp [get?] at h⟩

theorem size_write (store : VariableStore) (slot : Nat) (value : Bytes) :
    (store.write slot value).size = max store.size (slot + 1) := by
  simp only [size, write, List.length_set, List.length_append, List.length_replicate]
  omega

theorem Sound.write {store : VariableStore} (h : store.Sound) (slot : UInt8) (cell : Cell) :
    (store.write slot.toNat cell.toBytes).Sound := by
  refine ⟨?_, ?_⟩
  · rw [size_write]
    exact Nat.max_le.mpr ⟨h.size_le, slot.toNat_lt⟩
  · intro other value hvalue
    rw [get?_write] at hvalue
    split at hvalue
    · cases hvalue
      exact Cell.length_toBytes cell
    · exact h.width_eq other value hvalue

end VariableStore

/-! ## Steps -/

/-- The invariant of the machine. -/
structure Vm.Sound (vm : Vm) : Prop where
  stack : vm.stack.Sound
  store : vm.store.Sound
  pc_le : vm.pc ≤ vm.code.length
  not_aborted : vm.status ≠ .halted .aborted

namespace Vm.Sound

variable {vm : Vm}

theorem new (stackSize : Option Nat) : (Vm.new stackSize).Sound :=
  ⟨OperandStack.sound_of_empty rfl rfl, VariableStore.sound_empty, Nat.le_refl 0, nofun⟩

theorem load (vm : Vm) (code : Bytes) : (vm.load code).Sound :=
  ⟨OperandStack.sound_of_empty rfl rfl, VariableStore.sound_empty, Nat.zero_le _, nofun⟩

theorem fault (h : vm.Sound) (fault : Fault) : (vm.halt (.fault fault)).Sound :=
  ⟨h.stack, h.store, h.pc_le, nofun⟩

theorem finish (h : vm.Sound) : (vm.halt .normal).Sound :=
  ⟨h.stack, h.store, h.pc_le, nofun⟩

theorem pushCell (h : vm.Sound) (cell : Cell) {next : Nat} (hnext : next ≤ vm.code.length) :
    (vm.pushCell cell next).Sound := by
  unfold Vm.pushCell
  split
  · exact h.fault _
  · rename_i stack hpush
    exact ⟨h.stack.push hpush, h.store, hnext, h.not_aborted⟩

theorem popCell (h : vm.Sound) {use : Vm → Cell → Vm}
    (huse : ∀ vm' cell, vm'.Sound → vm'.code = vm.code → (use vm' cell).Sound) :
    (vm.popCell use).Sound := by
  rcases h.stack.pop with ⟨-, hpop⟩ | ⟨value, hpop, -, -, -, hstack⟩
  · simp only [Vm.popCell, hpop]
    exact h.fault _
  · simp only [Vm.popCell, hpop]
    exact huse _ _ ⟨hstack, h.store, h.pc_le, h.not_aborted⟩ rfl

theorem unary (h : vm.Sound) (op : Cell → Cell) {next : Nat} (hnext : next ≤ vm.code.length) :
    (vm.unary op next).Sound :=
  h.popCell fun _ _ h' hcode => h'.pushCell _ (hcode ▸ hnext)

theorem binary (h : vm.Sound) (op : Cell → Cell → Except Fault Cell) {next : Nat}
    (hnext : next ≤ vm.code.length) : (vm.binary op next).Sound := by
  refine h.popCell fun vm' a h' hcode => h'.popCell fun vm'' b h'' hcode' => ?_
  split
  · exact h''.fault _
  · exact h''.pushCell _ (by rwa [hcode', hcode])

/-- An instruction that is executed lies inside the code, so the next one starts there or at the
end. -/
theorem exec (h : vm.Sound) (hpc : vm.pc < vm.code.length) (op : Opcode) : (vm.exec op).Sound := by
  cases op with
  | constInt =>
      simp only [Vm.exec]
      split
      · exact h.fault _
      · rename_i value hvalue
        apply h.pushCell
        obtain ⟨bytes, hbytes, -⟩ := Option.map_eq_some_iff.mp hvalue
        unfold Bytes.slice? at hbytes
        split at hbytes
        · assumption
        · cases hbytes
  | store =>
      simp only [Vm.exec]
      split
      · exact h.fault _
      · rename_i slot hslot
        have hnext := (List.getElem?_eq_some_iff.mp hslot).1
        refine h.popCell fun vm' cell h' hcode => ?_
        exact ⟨h'.stack, h'.store.write slot cell, hcode ▸ hnext, h'.not_aborted⟩
  | load =>
      simp only [Vm.exec]
      split
      · exact h.fault _
      · rename_i slot hslot
        exact h.pushCell _ (List.getElem?_eq_some_iff.mp hslot).1
  | add | sub | mul | div | mod =>
      simp only [Vm.exec]
      exact h.binary _ hpc
  | intToFloat | floatToInt => exact h.unary _ hpc

theorem step (h : vm.Sound) : vm.step.Sound := by
  unfold Vm.step
  split
  · exact h
  · split
    · exact h.finish
    · rename_i byte hbyte
      split
      · exact h.fault _
      · exact h.exec (List.getElem?_eq_some_iff.mp hbyte).1 _

end Vm.Sound

theorem Vm.Sound.perform {vm : Vm} (h : vm.Sound) (call : Vm.Call) : (vm.perform call).Sound :=
  perform_keeps (fun vm code _ => .load vm code) (fun _ h => h.step) h call

theorem Vm.Reachable.sound {vm : Vm} (h : vm.Reachable) : vm.Sound := by
  obtain ⟨stackSize, calls, rfl⟩ := h
  exact List.foldlRecOn calls perform (.new stackSize) fun _ h call _ => h.perform call

end StackScript
