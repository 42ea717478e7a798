import StackScript.Proofs.MachineInvariant

/-! # Steps and runs

Steps can be asked for in any portions, and a run to the end is nothing but enough of them: one for
each instruction that is executed, and one more. A halted machine stays as it is, whatever it is
asked to do with the program that it has. -/

namespace StackScript

namespace Vm

/-! ## Answers -/

/-- What a call returns, given the status that it leaves. Only a call for a number of steps tells
the status of a machine that did not fault. -/
def Call.answer (status : Status) : Call → Except Fault (Option Status)
  | .load _ => .ok none
  | .run _ | .execute => status.fault?.elim (.ok none) .error
  | .runSteps _ => status.fault?.elim (.ok (some status)) .error

/-- What a machine returns from a call. -/
def reply (vm : Vm) (call : Call) : Except Fault (Option Status) :=
  call.answer (vm.perform call).status

/-- Whether a call goes on with the program that is loaded. -/
def Call.resumes : Call → Bool
  | .load _ | .run _ => false
  | .execute | .runSteps _ => true

theorem reply_execute (vm : Vm) : vm.reply .execute = vm.execute.outcome.map fun _ => none := by
  simp only [reply, Call.answer, perform, outcome]
  cases vm.execute.status.fault? <;> rfl

theorem reply_runSteps (vm : Vm) (count : Nat) :
    vm.reply (.runSteps count) =
      (vm.runSteps count).outcome.map fun _ => some (vm.runSteps count).status := by
  simp only [reply, Call.answer, perform, outcome]
  cases (vm.runSteps count).status.fault? <;> rfl

variable {vm : Vm}

/-! ## Halted machines -/

theorem step_of_isHalted (h : vm.status.isHalted = true) : vm.step = vm := by
  unfold step
  cases hstatus : vm.status with
  | running =>
      rw [hstatus] at h
      cases h
  | halted _ => rfl

theorem runSteps_of_isHalted (h : vm.status.isHalted = true) (count : Nat) :
    vm.runSteps count = vm := by
  cases count with
  | zero => rfl
  | succ count => rw [runSteps, if_pos h]

theorem execute_of_isHalted_step (h : vm.step.status.isHalted = true) : vm.execute = vm.step := by
  cases hstatus : vm.step.status with
  | running =>
      rw [hstatus] at h
      cases h
  | halted _ => exact execute_of_halted hstatus

theorem execute_of_isHalted (h : vm.status.isHalted = true) : vm.execute = vm := by
  have hstep := step_of_isHalted h
  rw [execute_of_isHalted_step (hstep.symm ▸ h), hstep]

/-- A halted machine does not go on. -/
theorem perform_of_isHalted (h : vm.status.isHalted = true) {call : Call}
    (hcall : call.resumes = true) : vm.perform call = vm := by
  cases call with
  | load code | run code => cases hcall
  | execute => exact execute_of_isHalted h
  | runSteps count => exact runSteps_of_isHalted h count

theorem performAll_of_isHalted (h : vm.status.isHalted = true) {calls : List Call}
    (hcalls : ∀ call ∈ calls, call.resumes = true) : vm.performAll calls = vm := by
  induction calls with
  | nil => rfl
  | cons call calls ih =>
      obtain ⟨hcall, hrest⟩ := List.forall_mem_cons.mp hcalls
      rw [performAll, List.foldl_cons, perform_of_isHalted h hcall]
      exact ih hrest

/-- A machine that faulted returns its fault again. -/
theorem reply_of_fault {fault : Fault} (h : vm.status = .halted (.fault fault)) {call : Call}
    (hcall : call.resumes = true) : vm.reply call = .error fault := by
  have hhalted : vm.status.isHalted = true := by rw [h]; rfl
  rw [reply, perform_of_isHalted hhalted hcall, h]
  cases call with
  | load code | run code => cases hcall
  | execute | runSteps count => rfl

/-! ## Portions of steps -/

/-- It makes no difference that a halted machine is not asked for steps. -/
theorem runSteps_succ (vm : Vm) (count : Nat) :
    vm.runSteps (count + 1) = vm.step.runSteps count := by
  rw [runSteps]
  split
  · rename_i h
    rw [step_of_isHalted h, runSteps_of_isHalted h]
  · rfl

theorem runSteps_add (vm : Vm) (m n : Nat) :
    vm.runSteps (m + n) = (vm.runSteps m).runSteps n := by
  induction m generalizing vm with
  | zero => rw [Nat.zero_add, runSteps]
  | succ m ih => rw [Nat.add_right_comm, runSteps_succ, ih, runSteps_succ]

/-- A step ahead of a run to the end is part of it. -/
theorem execute_step (vm : Vm) : vm.step.execute = vm.execute := by
  cases hstatus : vm.step.status with
  | running => exact (execute_of_running hstatus).symm
  | halted _ =>
      rw [execute_of_halted hstatus]
      exact execute_of_isHalted (by rw [hstatus]; rfl)

theorem isHalted_execute (vm : Vm) : vm.execute.status.isHalted = true := by
  fun_induction execute vm with
  | case1 vm halt hstatus => rw [hstatus]; rfl
  | case2 vm hstatus _ ih => exact ih

/-! ## Instructions of a run -/

/-- The next step executes an instruction. -/
def AtInstruction (vm : Vm) : Prop := vm.status = .running ∧ vm.pc < vm.code.length

theorem not_atInstruction_of_isHalted (h : vm.status.isHalted = true) : ¬ vm.AtInstruction := by
  rintro ⟨hrunning, -⟩
  rw [hrunning] at h
  cases h

/-- Where there is no instruction left, a step halts the machine. -/
theorem isHalted_step_of_not_atInstruction (h : ¬ vm.AtInstruction) :
    vm.step.status.isHalted = true := by
  cases hstatus : vm.status with
  | halted halt => rw [step_of_isHalted (by rw [hstatus]; rfl), hstatus]; rfl
  | running =>
      have hend : vm.code.length ≤ vm.pc := Nat.le_of_not_lt fun hlt => h ⟨hstatus, hlt⟩
      simp only [step, hstatus, List.getElem?_eq_none hend]
      rfl

/-- The steps of a machine that execute an instruction are the first ones, so many of them, and the
run to the end takes one step more. -/
structure EndsAfter (vm : Vm) (count : Nat) : Prop where
  atInstruction_iff : ∀ k, (vm.runSteps k).AtInstruction ↔ k < count
  execute_eq : vm.execute = vm.runSteps (count + 1)

theorem endsAfter_zero (h : ¬ vm.AtInstruction) : vm.EndsAfter 0 := by
  have hhalted := isHalted_step_of_not_atInstruction h
  refine ⟨fun k => ?_, ?_⟩
  · cases k with
    | zero => exact iff_of_false h (Nat.lt_irrefl 0)
    | succ k =>
        rw [runSteps_succ, runSteps_of_isHalted hhalted]
        exact iff_of_false (not_atInstruction_of_isHalted hhalted) (Nat.not_lt_zero _)
  · rw [execute_of_isHalted_step hhalted, runSteps_succ, runSteps]

theorem EndsAfter.succ {count : Nat} (hvm : vm.AtInstruction) (h : vm.step.EndsAfter count) :
    vm.EndsAfter (count + 1) := by
  refine ⟨fun k => ?_, ?_⟩
  · cases k with
    | zero => exact iff_of_true hvm (Nat.zero_lt_succ count)
    | succ k => rw [runSteps_succ, h.atInstruction_iff, Nat.add_lt_add_iff_right]
  · rw [runSteps_succ, ← h.execute_eq, execute_step]

/-- Every instruction takes a byte at least, so there are no more of them than bytes. -/
theorem exists_endsAfter (vm : Vm) : ∃ count ≤ vm.code.length - vm.pc, vm.EndsAfter count := by
  by_cases hvm : vm.AtInstruction
  · have hpc := hvm.2
    cases hstatus : vm.step.status with
    | halted halt =>
        have hend : ¬ vm.step.AtInstruction :=
          not_atInstruction_of_isHalted (by rw [hstatus]; rfl)
        exact ⟨1, by omega, (endsAfter_zero hend).succ hvm⟩
    | running =>
        obtain ⟨-, hadvance, hcode⟩ := step_progress hstatus
        obtain ⟨count, hcount, hends⟩ := exists_endsAfter vm.step
        rw [hcode] at hcount
        exact ⟨count + 1, by omega, hends.succ hvm⟩
  · exact ⟨0, Nat.zero_le _, endsAfter_zero hvm⟩
termination_by vm.code.length - vm.pc
decreasing_by
  rw [hcode]
  omega

theorem EndsAfter.execute_eq_runSteps {count k : Nat} (h : vm.EndsAfter count)
    (hk : count + 1 ≤ k) : vm.execute = vm.runSteps k := by
  obtain ⟨extra, rfl⟩ := Nat.exists_eq_add_of_le hk
  rw [runSteps_add, ← h.execute_eq, runSteps_of_isHalted vm.isHalted_execute]

/-! ## Every run ends -/

/-- Portions of steps add up. A run to the end executes no more instructions than there are bytes
of code. It is one step more than that, or any greater number of steps, and leaves the machine
halted. From then on the machine does not go on, and if it faulted it returns its fault for good. -/
theorem stepping_composes_and_ends (vm : Vm) :
    (∀ m n, (vm.runSteps m).runSteps n = vm.runSteps (m + n) ∧
      (vm.runSteps m).reply (.runSteps n) = vm.reply (.runSteps (m + n))) ∧
    (∀ k, vm.code.length + 1 ≤ k → vm.execute = vm.runSteps k ∧
      ∀ fault, vm.reply .execute = .error fault ↔ vm.reply (.runSteps k) = .error fault) ∧
    (∃ count ≤ vm.code.length, vm.EndsAfter count) ∧ vm.execute.status.isHalted = true ∧
    ∀ calls : List Call, (∀ call ∈ calls, call.resumes = true) →
      (vm.status.isHalted = true → vm.performAll calls = vm) ∧
      ∀ fault, vm.status = .halted (.fault fault) → ∀ call : Call, call.resumes = true →
        (vm.performAll calls).reply call = .error fault := by
  obtain ⟨count, hcount, hends⟩ := vm.exists_endsAfter
  have hlength : count ≤ vm.code.length := Nat.le_trans hcount (Nat.sub_le _ _)
  refine ⟨?_, ?_, ⟨count, hlength, hends⟩, vm.isHalted_execute, ?_⟩
  · intro m n
    refine ⟨(vm.runSteps_add m n).symm, ?_⟩
    rw [reply_runSteps, reply_runSteps, runSteps_add]
  · intro k hk
    have hexecute := hends.execute_eq_runSteps (Nat.le_trans (Nat.succ_le_succ hlength) hk)
    refine ⟨hexecute, fun fault => ?_⟩
    rw [reply_execute, reply_runSteps, ← hexecute]
    cases vm.execute.outcome <;> simp [Except.map]
  · intro calls hcalls
    refine ⟨fun hhalted => performAll_of_isHalted hhalted hcalls, fun fault hfault call hcall => ?_⟩
    have hhalted : vm.status.isHalted = true := by rw [hfault]; rfl
    rw [performAll_of_isHalted hhalted hcalls, reply_of_fault hfault hcall]

/-- The program divides five by zero. Its third instruction faults, and there the machine stays. -/
theorem stepping_composes_and_ends_divideByZero :
    ∃ vm : Vm, vm.code = [0, 5, 0, 0, 0, 0, 0, 0, 0, 0, 6] ∧ vm.execute = vm.runSteps 12 ∧
      vm.execute.status = .halted (.fault (.divideByZero 10)) ∧
      vm.execute.performAll [.runSteps 3, .execute] = vm.execute ∧
      (vm.execute.performAll [.runSteps 3, .execute]).reply (.runSteps 1) =
        .error (.divideByZero 10) := by
  let vm := (Vm.new none).load [0, 5, 0, 0, 0, 0, 0, 0, 0, 0, 6]
  have hfault : vm.execute.status = .halted (.fault (.divideByZero 10)) := by decide +kernel
  have hhalted : vm.execute.status.isHalted = true := by rw [hfault]; rfl
  obtain ⟨-, hexecute, -⟩ := vm.stepping_composes_and_ends
  obtain ⟨-, -, -, -, hstays⟩ := vm.execute.stepping_composes_and_ends
  obtain ⟨hsame, hreply⟩ := hstays [.runSteps 3, .execute] (by decide)
  exact ⟨vm, rfl, (hexecute 12 (by decide)).1, hfault, hsame hhalted,
    hreply _ hfault (.runSteps 1) rfl⟩

end Vm

end StackScript
