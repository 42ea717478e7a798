import StackScript.Proofs.Lockstep

/-! # No look-ahead

What a machine has done by the time it stops depends on the bytes before its program counter, and
how it stops on the instruction there. Nothing behind that instruction is looked at, and the
variables are left as the instructions before it left them. -/

namespace StackScript

/-! ## Bytes that decide -/

/-- The other code has the same bytes before an offset and in the instruction there. A byte that is
no operation code stands for itself, and an instruction that is cut off for the end of the code. -/
def SameThrough (code other : Bytes) (offset : Nat) : Prop :=
  match Instr.decode code offset with
  | .ok (_, size) => other.take (offset + size) = code.take (offset + size)
  | .error (.unknownOpcode ..) => other.take (offset + 1) = code.take (offset + 1)
  | .error (.truncated ..) => other = code

section

variable {code other : Bytes} {offset : Nat}

theorem SameThrough.take_eq (h : SameThrough code other offset) :
    other.take offset = code.take offset := by
  unfold SameThrough at h
  split at h
  · exact take_eq_of_take_add_eq h
  · exact take_eq_of_take_add_eq h
  · rw [h]

theorem Instr.decode_unknown_of_take {pos : Nat} {byte : UInt8}
    (h : decode code offset = .error (.unknownOpcode pos byte))
    (htake : other.take (offset + 1) = code.take (offset + 1)) :
    decode other offset = .error (.unknownOpcode pos byte) := by
  have hbyte : other[offset]? = code[offset]? := by
    have hget := congrArg (fun bytes => bytes[offset]?) htake
    simpa [List.getElem?_take] using hget
  unfold decode at h ⊢
  rw [hbyte]
  cases hcode : code[offset]? with
  | none => simp [hcode] at h
  | some found =>
      simp only [hcode] at h ⊢
      cases hop : Opcode.ofByte? found with
      | none => simpa [hop] using h
      | some op =>
          simp only [hop] at h
          split at h <;> cases h

theorem SameThrough.decode_eq (h : SameThrough code other offset) :
    Instr.decode other offset = Instr.decode code offset := by
  unfold SameThrough at h
  split at h
  · rename_i hdecode
    rw [hdecode, Instr.decode_of_take hdecode h]
  · rename_i hdecode
    rw [hdecode, Instr.decode_unknown_of_take hdecode h]
  · rw [h]

end

/-! ## The last step -/

namespace Vm

variable {vm : Vm}

theorem step_of_length_le (hrunning : vm.status = .running) (h : vm.code.length ≤ vm.pc) :
    vm.step = vm.halt .normal := by
  simp only [step, hrunning, List.getElem?_eq_none h]

namespace Sound

/-- Inside the code, a step goes on or faults; and if it faults, it does so in place. -/
theorem step_cases (h : vm.Sound) (hrunning : vm.status = .running)
    (hpc : vm.pc < vm.code.length) :
    vm.step.status = .running ∨
      ∃ fault, vm.step.status = .halted (.fault fault) ∧ vm.step.pc = vm.pc := by
  have hfollows := h.followsDecoding hrunning hpc
  cases hdecode : Instr.decode vm.code vm.pc with
  | error e =>
      rw [hfollows.of_error e hdecode]
      exact .inr ⟨_, rfl, rfl⟩
  | ok decoded =>
      obtain ⟨i, n⟩ := decoded
      rcases hact : vm.view.act vm.stack.capacity i with ⟨fault, s⟩ | s
      · obtain ⟨hstatus, -, -, hpc', -⟩ := hfollows.of_fault i n fault s hdecode hact
        exact .inr ⟨fault, hstatus, hpc'⟩
      · exact .inl (hfollows.of_ok i n s hdecode hact).1

/-- A fault stops the machine where it is, and leaves the variables as they were. -/
theorem step_of_fault (h : vm.Sound) (hrunning : vm.status = .running) {fault : Fault}
    (hfault : vm.step.status = .halted (.fault fault)) :
    vm.step.pc = vm.pc ∧ vm.step.store = vm.store := by
  by_cases hpc : vm.pc < vm.code.length
  · refine ⟨?_, keepsStore_step (by simp [hfault])⟩
    rcases h.step_cases hrunning hpc with hstep | ⟨_, -, hstep⟩
    · rw [hstep] at hfault
      cases hfault
    · exact hstep
  · rw [step_of_length_le hrunning (Nat.le_of_not_lt hpc)] at hfault
    cases hfault

/-- A machine halts without a fault at the end of its code only. -/
theorem step_of_normal (h : vm.Sound) (hrunning : vm.status = .running)
    (hnormal : vm.step.status = .halted .normal) :
    vm.pc = vm.code.length ∧ vm.step = vm.halt .normal := by
  by_cases hpc : vm.pc < vm.code.length
  · rcases h.step_cases hrunning hpc with hstep | ⟨_, hstep, -⟩
    all_goals
      rw [hstep] at hnormal
      cases hnormal
  · have hend := Nat.le_of_not_lt hpc
    exact ⟨Nat.le_antisymm h.pc_le hend, step_of_length_le hrunning hend⟩

end Sound

/-! ## Whole runs -/

/-- The last step of a run is taken by a machine that is still running. -/
theorem exists_run_eq_step (vm : Vm) (code : Bytes) :
    ∃ count, ((vm.load code).runSteps count).status = .running ∧
      ((vm.load code).runSteps count).code = code ∧
      ((vm.load code).runSteps count).Sound ∧
      vm.run code = ((vm.load code).runSteps count).step := by
  obtain ⟨count, hrunning, hrun⟩ := (vm.load code).exists_last_running rfl
  exact ⟨count, hrunning, code_runSteps hrunning,
    runSteps_keeps (fun _ h => h.step) (.load vm code) count, hrun⟩

section

variable {code other : Bytes} {count : Nat}

/-- On code with the same bytes up to where a machine has come, it comes to the same state. -/
theorem alike_runSteps_load (other : Bytes)
    (hrunning : ((vm.load code).runSteps count).status = .running)
    (htake : other.take ((vm.load code).runSteps count).pc =
      code.take ((vm.load code).runSteps count).pc) :
    ((vm.load code).runSteps count).Alike ((vm.load other).runSteps count) :=
  (alike_load vm vm code other).runSteps (Nat.le_refl _) hrunning htake

theorem capacity_run (vm : Vm) (code : Bytes) :
    (vm.run code).stack.capacity = vm.stack.capacity :=
  congrArg Prod.snd (vm.config_perform (.run code))

/-- Code that is cut where a run faults runs to its end. -/
theorem run_take_of_fault {fault : Fault} (hfault : (vm.run code).status = .halted (.fault fault)) :
    (vm.run (code.take (vm.run code).pc)).status = .halted .normal ∧
      (vm.run (code.take (vm.run code).pc)).pc = (vm.run code).pc ∧
      (vm.run (code.take (vm.run code).pc)).store = (vm.run code).store := by
  obtain ⟨count, hrunning, -, hsound, hrun⟩ := vm.exists_run_eq_step code
  rw [hrun] at hfault ⊢
  obtain ⟨hpc, hstore⟩ := hsound.step_of_fault hrunning hfault
  rw [hpc, hstore]
  have halike := alike_runSteps_load (code.take ((vm.load code).runSteps count).pc) hrunning
    (by rw [List.take_take, Nat.min_self])
  have hrunning' := halike.status_eq.trans hrunning
  have hstep := step_of_length_le hrunning' (by
    rw [code_runSteps hrunning', halike.pc_eq]
    exact List.length_take_le ..)
  rw [run, execute_eq_step (by rw [hstep]; rfl), hstep]
  exact ⟨rfl, halike.pc_eq, halike.store_eq⟩

/-- What stands behind the instruction at which a run ends makes no difference to it. -/
theorem run_of_sameThrough (h : SameThrough code other (vm.run code).pc) {fault : Fault}
    (hfault : (vm.run code).status = .halted (.fault fault)) :
    (vm.run other).status = .halted (.fault fault) ∧
      (vm.run other).pc = (vm.run code).pc ∧
      (vm.run other).store = (vm.run code).store ∧
      (vm.run other).stack = (vm.run code).stack := by
  obtain ⟨count, hrunning, -, hsound, hrun⟩ := vm.exists_run_eq_step code
  have hpc : (vm.run code).pc = ((vm.load code).runSteps count).pc := by
    rw [hrun] at hfault ⊢
    exact (hsound.step_of_fault hrunning hfault).1
  rw [hpc] at h
  have hsame : (vm.run code).Alike (vm.run other) :=
    (alike_load vm vm code other).execute hrunning hrun h.take_eq h.decode_eq (.inl rfl)
  refine ⟨hsame.status_eq.trans hfault, hsame.pc_eq, hsame.store_eq, hsame.stack_eq ?_⟩
  rw [capacity_run, capacity_run]

/-- A run that comes to the end of its code comes to the same state if there is more code. -/
theorem runSteps_append_of_normal (hnormal : (vm.run code).status = .halted .normal)
    (extra : Bytes) :
    ∃ count, ((vm.load (code ++ extra)).runSteps count).status = .running ∧
      ((vm.load (code ++ extra)).runSteps count).pc = code.length ∧
      ((vm.load (code ++ extra)).runSteps count).stack = (vm.run code).stack ∧
      ((vm.load (code ++ extra)).runSteps count).store = (vm.run code).store ∧
      ((vm.load (code ++ extra)).runSteps count).execute = vm.run (code ++ extra) := by
  obtain ⟨count, hrunning, hcode, hsound, hrun⟩ := vm.exists_run_eq_step code
  rw [hrun] at hnormal ⊢
  obtain ⟨hpc, hstep⟩ := hsound.step_of_normal hrunning hnormal
  have halike := alike_runSteps_load (code ++ extra) hrunning
    (by rw [hpc, hcode, List.take_left, List.take_length])
  rw [hstep]
  refine ⟨count, halike.status_eq.trans hrunning, ?_, halike.stack_eq ?_, halike.store_eq,
    execute_runSteps _ count⟩
  · rw [halike.pc_eq, hpc, hcode]
  · rw [capacity_runSteps, capacity_runSteps]
    rfl

end

/-- A machine stops where it faults and does not look ahead. Cut there, its code runs to the end
with the same variables; changed behind the instruction there, it ends in the same way. And the end
of a run without a fault is passed through if there is more code. -/
theorem run_looks_no_further (vm : Vm) (code : Bytes) :
    (∀ fault, (vm.run code).status = .halted (.fault fault) →
      ((vm.run (code.take (vm.run code).pc)).status = .halted .normal ∧
        (vm.run (code.take (vm.run code).pc)).pc = (vm.run code).pc ∧
        (vm.run (code.take (vm.run code).pc)).store = (vm.run code).store) ∧
      ∀ other, SameThrough code other (vm.run code).pc →
        (vm.run other).status = .halted (.fault fault) ∧
        (vm.run other).pc = (vm.run code).pc ∧
        (vm.run other).store = (vm.run code).store ∧
        (vm.run other).stack = (vm.run code).stack) ∧
    ((vm.run code).status = .halted .normal → ∀ extra,
      ∃ count, ((vm.load (code ++ extra)).runSteps count).status = .running ∧
        ((vm.load (code ++ extra)).runSteps count).pc = code.length ∧
        ((vm.load (code ++ extra)).runSteps count).stack = (vm.run code).stack ∧
        ((vm.load (code ++ extra)).runSteps count).store = (vm.run code).store ∧
        ((vm.load (code ++ extra)).runSteps count).execute = vm.run (code ++ extra)) := by
  refine ⟨fun fault hfault => ⟨run_take_of_fault hfault, fun other hother => ?_⟩, fun hnormal => ?_⟩
  · exact run_of_sameThrough hother hfault
  · exact runSteps_append_of_normal hnormal

/-- The program stores a cell and then divides by zero. It does so whatever stands behind the
division, and the store comes to be when its first two instructions are through. -/
theorem run_looks_no_further_divideByZero :
    let vm := Vm.new (some 64)
    let code : Bytes := [0, 7, 0, 0, 0, 1, 3, 2, 3, 0, 0, 0, 0, 0, 6, 255]
    let other : Bytes := code.take 15 ++ [1]
    (vm.run code).status = .halted (.fault (.divideByZero 14)) ∧
      SameThrough code other (vm.run code).pc ∧
      (vm.run other).status = .halted (.fault (.divideByZero 14)) ∧
      (vm.run (code.take (vm.run code).pc)).status = .halted .normal ∧
      (vm.run (code.take 7)).status = .halted .normal ∧
      ∃ count, ((vm.load (code.take 7 ++ code.drop 7)).runSteps count).store =
        (vm.run (code.take 7)).store := by
  intro vm code other
  have hfault : (vm.run code).status = .halted (.fault (.divideByZero 14)) := by decide +kernel
  have hnormal : (vm.run (code.take 7)).status = .halted .normal := by decide +kernel
  have hpc : (vm.run code).pc = 14 := by decide +kernel
  have hother : SameThrough code other (vm.run code).pc := by
    rw [hpc]
    exact (rfl : other.take 15 = code.take 15)
  obtain ⟨hcut, hsame⟩ := (run_looks_no_further vm code).1 _ hfault
  obtain ⟨count, -, -, -, hstore, -⟩ :=
    (run_looks_no_further vm (code.take 7)).2 hnormal (code.drop 7)
  exact ⟨hfault, hother, (hsame other hother).1, hcut.1, hnormal, count, hstore⟩

end Vm

end StackScript
