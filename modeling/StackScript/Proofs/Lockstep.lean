import StackScript.Proofs.BytecodeFormat
import StackScript.Proofs.Reloading

/-! # Machines in step

A step looks at the instruction at the program counter, and at the capacity of the stack only to
find it full. So two machines in the same state stay in the same state, step for step, as long as
they find the same instructions and the smaller stack does not overflow. -/

namespace StackScript

/-! ## Steps by instructions -/

/-- What becomes of a machine that finds no instruction. -/
def DecodeError.halt : DecodeError → Halt
  | .truncated _ none => .normal
  | e => .fault (.ofDecodeError e)

namespace Vm

variable {vm other : Vm}

theorem step_of_decode_ok (hrunning : vm.status = .running) {i : Instr} {n : Nat}
    (h : Instr.decode vm.code vm.pc = .ok (i, n)) :
    vm.step = vm.exec i.opcode ∧ Instr.ofOpcode? vm.code (vm.pc + 1) i.opcode = some i := by
  unfold Instr.decode at h
  split at h
  · cases h
  · rename_i byte hbyte
    split at h
    · cases h
    · rename_i op hop
      split at h
      · cases h
      · rename_i j hj
        cases h
        obtain ⟨rfl, -⟩ := Instr.operandBytes_of_ofOpcode? hj
        exact ⟨by simp only [step, hrunning, hbyte, hop], hj⟩

/-- At the end of the code nothing is decoded either, and there the machine halts as it should. -/
theorem step_eq_halt_of_decode (hrunning : vm.status = .running) {e : DecodeError}
    (h : Instr.decode vm.code vm.pc = .error e) : vm.step = vm.halt e.halt := by
  cases hbyte : vm.code[vm.pc]? with
  | none =>
      simp only [Instr.decode, hbyte, Except.error.injEq] at h
      simp only [step, hrunning, hbyte, ← h, DecodeError.halt]
  | some byte =>
      rw [step_of_decode_error hrunning (List.getElem?_eq_some_iff.mp hbyte).1 h]
      simp only [Instr.decode, hbyte] at h
      split at h
      · cases h
        rfl
      · split at h
        · cases h
          rfl
        · cases h

/-! ## The same state -/

/-- The other machine is in the same state. Its code and the capacity of its stack may differ. -/
structure Alike (vm other : Vm) : Prop where
  pc_eq : other.pc = vm.pc
  bytes_eq : other.stack.bytes = vm.stack.bytes
  widths_eq : other.stack.widths = vm.stack.widths
  store_eq : other.store = vm.store
  status_eq : other.status = vm.status

/-- The machine found its stack full. -/
def Overflowed (vm : Vm) : Prop :=
  ∃ requested position capacity,
    vm.status = .halted (.fault (.stackOverflow requested position capacity))

/-- The capacity of the other machine makes no difference on the way to `last`: it is the same, or
it is larger and the stack is not found full. -/
def SameRoom (vm other last : Vm) : Prop :=
  other.stack.capacity = vm.stack.capacity ∨
    vm.stack.capacity ≤ other.stack.capacity ∧ ¬ last.Overflowed

theorem SameRoom.capacity_le {last : Vm} (h : vm.SameRoom other last) :
    vm.stack.capacity ≤ other.stack.capacity := by
  rcases h with hsame | ⟨hle, -⟩
  · exact Nat.le_of_eq hsame.symm
  · exact hle

/-- All machines start in the same state. -/
theorem alike_load (vm other : Vm) (code code' : Bytes) :
    (vm.load code).Alike (other.load code') :=
  ⟨rfl, rfl, rfl, rfl, rfl⟩

namespace Alike

theorem position_eq (h : vm.Alike other) : other.stack.position = vm.stack.position :=
  congrArg List.length h.bytes_eq

theorem stack_eq (h : vm.Alike other) (hcapacity : other.stack.capacity = vm.stack.capacity) :
    other.stack = vm.stack :=
  calc other.stack
    _ = ⟨other.stack.capacity, other.stack.bytes, other.stack.widths⟩ := rfl
    _ = vm.stack := by rw [hcapacity, h.bytes_eq, h.widths_eq]

theorem halt (h : vm.Alike other) (halt : Halt) : (vm.halt halt).Alike (other.halt halt) :=
  ⟨h.pc_eq, h.bytes_eq, h.widths_eq, h.store_eq, rfl⟩

theorem pushCell (h : vm.Alike other) {cell : Cell} {next : Nat}
    (hroom : vm.SameRoom other (vm.pushCell cell next)) :
    (vm.pushCell cell next).Alike (other.pushCell cell next) := by
  by_cases hfull : vm.stack.capacity < vm.stack.position + cell.toBytes.length
  · have hvm : vm.pushCell cell next = vm.halt (.fault (.stackOverflow cell.toBytes.length
        vm.stack.position vm.stack.capacity)) := by
      rw [Vm.pushCell, OperandStack.push, if_pos hfull]
    rcases hroom with hsame | ⟨-, hover⟩
    · rw [hvm, Vm.pushCell, OperandStack.push, h.position_eq, hsame, if_pos hfull]
      exact h.halt _
    · rw [hvm] at hover
      exact absurd ⟨_, _, _, rfl⟩ hover
  · have hfits : ¬ other.stack.capacity < other.stack.position + cell.toBytes.length := by
      rw [h.position_eq]
      exact fun hlt => hfull (Nat.lt_of_le_of_lt hroom.capacity_le hlt)
    simp only [Vm.pushCell, OperandStack.push, if_neg hfull, if_neg hfits, h.bytes_eq, h.widths_eq]
    exact ⟨rfl, rfl, rfl, h.store_eq, h.status_eq⟩

theorem popCell (h : vm.Alike other) {use use' : Vm → Cell → Vm}
    (hroom : vm.SameRoom other (vm.popCell use))
    (huse : ∀ {vm' other' : Vm} (cell : Cell), vm'.Alike other' →
      vm'.SameRoom other' (use vm' cell) → (use vm' cell).Alike (use' other' cell)) :
    (vm.popCell use).Alike (other.popCell use') := by
  simp only [Vm.popCell, OperandStack.pop, h.bytes_eq, h.widths_eq, h.position_eq] at hroom ⊢
  cases hlast : vm.stack.bytes.last? Cell.width with
  | none =>
      simp only
      exact h.halt _
  | some bytes =>
      by_cases hwidth : vm.stack.widths.head? = some Cell.width
      · simp only [hlast, if_pos hwidth] at hroom ⊢
        exact huse _ ⟨h.pc_eq, rfl, rfl, h.store_eq, h.status_eq⟩ hroom
      · simp only [if_neg hwidth]
        exact h.halt _

theorem unary (h : vm.Alike other) {op : Cell → Cell} {next : Nat}
    (hroom : vm.SameRoom other (vm.unary op next)) :
    (vm.unary op next).Alike (other.unary op next) :=
  h.popCell hroom fun _ h' hroom' => h'.pushCell hroom'

theorem binary (h : vm.Alike other) {op : Cell → Cell → Except Fault Cell} {next : Nat}
    (hroom : vm.SameRoom other (vm.binary op next)) :
    (vm.binary op next).Alike (other.binary op next) := by
  refine h.popCell hroom fun a h' hroom' => h'.popCell hroom' fun b h'' hroom'' => ?_
  cases hop : op b a with
  | error fault =>
      simp only
      exact h''.halt _
  | ok cell =>
      simp only [hop] at hroom'' ⊢
      exact h''.pushCell hroom''

/-- An instruction does the same on both machines if both read the same operand. -/
theorem exec (h : vm.Alike other) {op : Opcode} {i : Instr}
    (hvm : Instr.ofOpcode? vm.code (vm.pc + 1) op = some i)
    (hother : Instr.ofOpcode? other.code (vm.pc + 1) op = some i)
    (hroom : vm.SameRoom other (vm.exec op)) : (vm.exec op).Alike (other.exec op) := by
  cases op with
  | constInt =>
      obtain ⟨value, hvalue, rfl⟩ := Option.map_eq_some_iff.mp hvm
      obtain ⟨_, hvalue', hsame⟩ := Option.map_eq_some_iff.mp hother
      cases hsame
      simp only [Vm.exec, h.pc_eq, hvalue, hvalue'] at hroom ⊢
      exact h.pushCell hroom
  | store =>
      obtain ⟨slot, hslot, rfl⟩ := Option.map_eq_some_iff.mp hvm
      obtain ⟨_, hslot', hsame⟩ := Option.map_eq_some_iff.mp hother
      cases hsame
      simp only [Vm.exec, h.pc_eq, hslot, hslot'] at hroom ⊢
      refine h.popCell hroom fun cell h' _ => ?_
      exact ⟨rfl, h'.bytes_eq, h'.widths_eq, by rw [h'.store_eq], h'.status_eq⟩
  | load =>
      obtain ⟨slot, hslot, rfl⟩ := Option.map_eq_some_iff.mp hvm
      obtain ⟨_, hslot', hsame⟩ := Option.map_eq_some_iff.mp hother
      cases hsame
      simp only [Vm.exec, h.pc_eq, h.store_eq, hslot, hslot'] at hroom ⊢
      exact h.pushCell hroom
  | add | sub | mul | div | mod =>
      simp only [Vm.exec, h.pc_eq] at hroom ⊢
      exact h.binary hroom
  | intToFloat | floatToInt =>
      simp only [Vm.exec, h.pc_eq] at hroom ⊢
      exact h.unary hroom

/-- Where both machines find the same instruction, or none, they stay in the same state. -/
theorem step (h : vm.Alike other)
    (hdecode : Instr.decode other.code vm.pc = Instr.decode vm.code vm.pc)
    (hroom : vm.SameRoom other vm.step) : vm.step.Alike other.step := by
  cases hstatus : vm.status with
  | halted halt =>
      have hhalted : vm.status.isHalted = true := by rw [hstatus]; rfl
      rw [step_of_isHalted hhalted, step_of_isHalted (h.status_eq ▸ hhalted)]
      exact h
  | running =>
      have hstatus' : other.status = .running := h.status_eq.trans hstatus
      cases hvm : Instr.decode vm.code vm.pc with
      | error e =>
          have hother : Instr.decode other.code other.pc = .error e := by
            rw [h.pc_eq, hdecode, hvm]
          rw [step_eq_halt_of_decode hstatus hvm, step_eq_halt_of_decode hstatus' hother]
          exact h.halt _
      | ok decoded =>
          obtain ⟨i, n⟩ := decoded
          have hother : Instr.decode other.code other.pc = .ok (i, n) := by
            rw [h.pc_eq, hdecode, hvm]
          obtain ⟨hstep, hoperand⟩ := step_of_decode_ok hstatus hvm
          obtain ⟨hstep', hoperand'⟩ := step_of_decode_ok hstatus' hother
          rw [h.pc_eq] at hoperand'
          rw [hstep] at hroom ⊢
          rw [hstep']
          exact h.exec hoperand hoperand' hroom

end Alike

end Vm

/-! ## Runs -/

theorem take_eq_of_take_add_eq {code other : Bytes} {offset size : Nat}
    (h : other.take (offset + size) = code.take (offset + size)) :
    other.take offset = code.take offset := by
  have htake := congrArg (List.take offset) h
  simpa [List.take_take] using htake

/-- An instruction is decoded from its own bytes alone. -/
theorem Instr.decode_of_take {code other : Bytes} {offset n : Nat} {i : Instr}
    (h : decode code offset = .ok (i, n))
    (htake : other.take (offset + n) = code.take (offset + n)) :
    decode other offset = .ok (i, n) := by
  obtain rfl := size_of_decode h
  have hlength : (code.take offset).length = offset :=
    List.length_take_of_le (Nat.le_of_lt (decode_bounds h).2)
  have hother : other = code.take offset ++ (i.encode ++ other.drop (offset + i.size)) :=
    calc other = other.take (offset + i.size) ++ other.drop (offset + i.size) :=
          (List.take_append_drop _ _).symm
      _ = code.take offset ++ (code.drop offset).take i.size ++ other.drop (offset + i.size) := by
          rw [htake, List.take_add]
      _ = code.take offset ++ (i.encode ++ other.drop (offset + i.size)) := by
          rw [drop_of_decode h, ← length_encode i, List.take_left, List.append_assoc]
  have hdecode := decode_append (code.take offset) (other.drop (offset + i.size)) i
  rwa [← hother, hlength] at hdecode

namespace Vm

variable {vm other : Vm}

theorem runSteps_succ_eq_step (vm : Vm) (count : Nat) :
    vm.runSteps (count + 1) = (vm.runSteps count).step := by
  rw [runSteps_add, runSteps_succ, runSteps]

theorem running_of_step (h : vm.step.status = .running) : vm.status = .running := by
  cases hstatus : vm.status with
  | running => rfl
  | halted halt =>
      rw [step_of_isHalted (by rw [hstatus]; rfl), hstatus] at h
      cases h

/-- A machine that still runs after a step has executed an instruction. -/
theorem decode_of_step (h : vm.step.status = .running) :
    ∃ i n, Instr.decode vm.code vm.pc = .ok (i, n) ∧ vm.step.pc = vm.pc + n := by
  have hrunning := running_of_step h
  cases hdecode : Instr.decode vm.code vm.pc with
  | error e =>
      rw [step_eq_halt_of_decode hrunning hdecode] at h
      exact absurd h (halt_status vm _)
  | ok decoded =>
      obtain ⟨i, n⟩ := decoded
      obtain rfl := Instr.size_of_decode hdecode
      rw [(step_of_decode_ok hrunning hdecode).1] at h ⊢
      exact ⟨i, i.size, rfl, by rw [(advances_exec vm i.opcode h).1, Instr.size, Nat.add_assoc]⟩

theorem code_runSteps {count : Nat} (h : (vm.runSteps count).status = .running) :
    (vm.runSteps count).code = vm.code := by
  induction count with
  | zero => rfl
  | succ count ih =>
      rw [runSteps_succ_eq_step] at h ⊢
      rw [(step_progress h).2.2, ih (running_of_step h)]

theorem capacity_runSteps (vm : Vm) (count : Nat) :
    (vm.runSteps count).stack.capacity = vm.stack.capacity :=
  congrArg Prod.snd (vm.config_perform (.runSteps count))

theorem SameRoom.runSteps {last : Vm} (h : vm.SameRoom other last) (count : Nat) :
    (vm.runSteps count).SameRoom (other.runSteps count) last := by
  simpa only [SameRoom, capacity_runSteps] using h

/-- As long as a machine runs, another one with the same bytes before the program counter stays in
the same state. -/
theorem Alike.runSteps (h : vm.Alike other) (hcapacity : vm.stack.capacity ≤ other.stack.capacity)
    {count : Nat} (hrunning : (vm.runSteps count).status = .running)
    (htake : other.code.take (vm.runSteps count).pc = vm.code.take (vm.runSteps count).pc) :
    (vm.runSteps count).Alike (other.runSteps count) := by
  induction count with
  | zero => exact h
  | succ count ih =>
      rw [runSteps_succ_eq_step] at hrunning htake
      rw [runSteps_succ_eq_step, runSteps_succ_eq_step]
      have hbefore := running_of_step hrunning
      obtain ⟨i, n, hdecode, hpc⟩ := decode_of_step hrunning
      rw [hpc] at htake
      have halike := ih hbefore (take_eq_of_take_add_eq htake)
      have hrunning' : (other.runSteps count).status = .running := halike.status_eq.trans hbefore
      refine halike.step ?_ (.inr ⟨?_, ?_⟩)
      · rw [code_runSteps hbefore] at hdecode ⊢
        rw [code_runSteps hrunning', hdecode]
        exact Instr.decode_of_take hdecode htake
      · rwa [capacity_runSteps, capacity_runSteps]
      · rintro ⟨_, _, _, hover⟩
        rw [hrunning] at hover
        cases hover

/-- The last state in which a machine runs, if it runs at all. -/
theorem exists_last_running (vm : Vm) (h : vm.status = .running) :
    ∃ count, (vm.runSteps count).status = .running ∧ vm.execute = (vm.runSteps count).step := by
  fun_induction execute vm with
  | case1 vm halt hstatus => exact ⟨0, h, rfl⟩
  | case2 vm hstatus _ ih =>
      obtain ⟨count, hrunning, hexecute⟩ := ih hstatus
      exact ⟨count + 1, by rwa [runSteps_succ], by rw [runSteps_succ, hexecute]⟩

theorem execute_runSteps (vm : Vm) (count : Nat) : (vm.runSteps count).execute = vm.execute := by
  induction count generalizing vm with
  | zero => rfl
  | succ count ih => rw [runSteps_succ, ih, execute_step]

theorem execute_eq_step {count : Nat} (h : (vm.runSteps count).step.status.isHalted = true) :
    vm.execute = (vm.runSteps count).step := by
  rw [← execute_runSteps vm count, execute_of_isHalted_step h]

/-- A machine ends in the same state as another if both have the same bytes before the place where
it ends, and find the same there. -/
theorem Alike.execute (h : vm.Alike other) {count : Nat}
    (hlast : (vm.runSteps count).status = .running)
    (hexecute : vm.execute = (vm.runSteps count).step)
    (htake : other.code.take (vm.runSteps count).pc = vm.code.take (vm.runSteps count).pc)
    (hdecode : Instr.decode other.code (vm.runSteps count).pc =
      Instr.decode vm.code (vm.runSteps count).pc)
    (hroom : vm.SameRoom other vm.execute) : vm.execute.Alike other.execute := by
  have halike := h.runSteps hroom.capacity_le hlast htake
  have hlast' : (other.runSteps count).status = .running := halike.status_eq.trans hlast
  have hstep : (vm.runSteps count).step.Alike (other.runSteps count).step := by
    refine halike.step ?_ (hexecute ▸ hroom.runSteps count)
    rw [code_runSteps hlast, code_runSteps hlast', hdecode]
  have hhalted : (other.runSteps count).step.status.isHalted = true := by
    rw [hstep.status_eq, ← hexecute]
    exact vm.isHalted_execute
  rw [hexecute, execute_eq_step hhalted]
  exact hstep

/-! ## Larger stacks -/

/-- The capacity of the stack in bytes, given the one that was asked for. -/
def capacityFor : Option Nat → Nat
  | none | some 0 => 1024
  | some (size + 1) => size + 1

theorem capacity_new (stackSize : Option Nat) :
    (Vm.new stackSize).stack.capacity = capacityFor stackSize := by
  match stackSize with
  | none | some 0 | some (size + 1) => rfl

/-- With a larger stack a program ends as it does with a smaller one, in the same state and with
the same result, unless the smaller one overflows. -/
theorem run_of_capacity_le {small large : Option Nat} (h : capacityFor small ≤ capacityFor large)
    (code : Bytes) :
    ((Vm.new small).run code).Overflowed ∨
      ((Vm.new large).run code).outcome = ((Vm.new small).run code).outcome ∧
      ((Vm.new large).run code).status = ((Vm.new small).run code).status ∧
      ((Vm.new large).run code).pc = ((Vm.new small).run code).pc ∧
      ((Vm.new large).run code).stack.position = ((Vm.new small).run code).stack.position ∧
      ((Vm.new large).run code).stack.bytes = ((Vm.new small).run code).stack.bytes ∧
      ((Vm.new large).run code).store = ((Vm.new small).run code).store := by
  rw [← capacity_new, ← capacity_new] at h
  by_cases hover : ((Vm.new small).run code).Overflowed
  · exact .inl hover
  · obtain ⟨count, hlast, hexecute⟩ := ((Vm.new small).load code).exists_last_running rfl
    have hrun : ((Vm.new small).run code).Alike ((Vm.new large).run code) :=
      (alike_load ..).execute hlast hexecute rfl rfl (.inr ⟨h, hover⟩)
    refine .inr ⟨?_, hrun.status_eq, hrun.pc_eq, hrun.position_eq, hrun.bytes_eq, hrun.store_eq⟩
    rw [outcome, outcome, hrun.status_eq]

/-- Six bytes have room for one cell. The program stores it, and then finds no cells to add. -/
theorem run_of_capacity_le_oddCapacity :
    capacityFor (some 6) ≤ capacityFor (some 0) ∧
      ((Vm.new (some 6)).run [0, 5, 0, 0, 0, 1, 3, 3]).pc = 7 ∧
      ((Vm.new (some 0)).run [0, 5, 0, 0, 0, 1, 3, 3]).status =
        .halted (.fault (.stackUnderflow 4 0)) ∧
      ((Vm.new (some 0)).run [0, 5, 0, 0, 0, 1, 3, 3]).pc = 7 := by
  have hcapacity : capacityFor (some 6) ≤ capacityFor (some 0) := by decide
  have hpc : ((Vm.new (some 6)).run [0, 5, 0, 0, 0, 1, 3, 3]).pc = 7 := by decide +kernel
  have hstatus : ((Vm.new (some 6)).run [0, 5, 0, 0, 0, 1, 3, 3]).status =
      .halted (.fault (.stackUnderflow 4 0)) := by
    decide +kernel
  rcases run_of_capacity_le hcapacity [0, 5, 0, 0, 0, 1, 3, 3] with ⟨_, _, _, hover⟩ | hsame
  · rw [hstatus] at hover
    cases hover
  · exact ⟨hcapacity, hpc, hsame.2.1.trans hstatus, hsame.2.2.1.trans hpc⟩

end Vm

end StackScript
