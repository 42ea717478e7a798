import StackScript.Proofs.MachineInvariant
import StackScript.Proofs.Nesting
import StackScript.Proofs.StackEffect

/-! # Room on the stack

How many cells some code has on the stack at a time is known before it runs, whatever the cells.
For a compiled script this number comes from the depth of its brackets, and a machine with room for
so many cells never finds its stack full. -/

namespace StackScript

/-! ## Peaks -/

/-- The greatest height of the stack while some code runs. -/
def peak : List Instr → Nat → Nat
  | [], height => height
  | i :: code, height => max height (peak code (height - i.pops + i.pushes))

theorem le_peak (code : List Instr) (height : Nat) : height ≤ peak code height := by
  cases code with
  | nil => exact Nat.le_refl height
  | cons i code => exact Nat.le_max_left _ _

theorem peak_append {xs : List Instr} {height last : Nat} (h : heightAfter xs height = some last)
    (ys : List Instr) : peak (xs ++ ys) height = max (peak xs height) (peak ys last) := by
  induction xs generalizing height with
  | nil =>
      obtain rfl := Option.some.inj h
      exact (Nat.max_eq_right (le_peak ys _)).symm
  | cons i xs ih =>
      have hrest := (heightAfter_cons_eq_some_iff.mp h).2
      rw [List.cons_append, peak, peak, ih hrest, Nat.max_assoc]

theorem peak_conversion (source target : String) (height : Nat) :
    peak (conversion source target) (height + 1) = height + 1 := by
  unfold conversion
  split
  · rfl
  · split <;> exact Nat.max_self _

theorem peak_instr (op : Arithmetic) (height : Nat) :
    peak [op.instr] (height + 2) = height + 2 := by
  cases op <;> exact Nat.max_eq_left (Nat.le_succ _)

/-- The left operand leaves one cell below the right one. -/
theorem peak_term (table : SymbolTable) (a : Term) (height : Nat) :
    peak (a.code table) height = height + a.height := by
  induction a generalizing height with
  | constant value => exact Nat.max_eq_right (Nat.le_succ height)
  | name x => exact Nat.max_eq_right (Nat.le_succ height)
  | operation op left right ihl ihr =>
      have hpos := right.height_pos
      rw [Term.code, List.append_assoc, List.append_assoc,
        peak_append (heightAfter_term table left height),
        peak_append (heightAfter_term table right (height + 1)),
        peak_append (heightAfter_conversion _ _ (height + 1)), ihl, ihr, peak_conversion,
        peak_instr, Term.height]
      omega

theorem peak_statement (registry : Registry) (table : SymbolTable) (st : Statement)
    (height : Nat) : peak (st.code registry table) height = height + st.height := by
  cases st with
  | assignment p a =>
      have hpos := a.height_pos
      rw [Statement.code, List.append_assoc, peak_append (heightAfter_term _ a height),
        peak_append (heightAfter_conversion _ _ height), peak_term, peak_conversion,
        Statement.height]
      simp only [peak, Instr.pops, Instr.pushes]
      omega
  | declaration ty x => rfl
  | value a => exact peak_term table a height

/-- No statement leaves a cell for the next one, so a program needs no more than one of its
statements does. -/
theorem Program.WellTyped.peak_le {registry : Registry} {table : SymbolTable}
    {program : List Statement} (h : WellTyped registry table program) {height limit : Nat}
    (hheight : ∀ st ∈ program, st.height ≤ limit) :
    peak (code registry table program) height ≤ height + limit := by
  induction program generalizing table with
  | nil => exact Nat.le_add_right height limit
  | cons st program ih =>
      obtain ⟨-, hvalue, hrest⟩ := h
      have hafter := heightAfter_statement registry table st height
      rw [hvalue] at hafter
      rw [code, peak_append hafter, peak_statement]
      apply Nat.max_le.mpr
      constructor
      · exact Nat.add_le_add_left (hheight st List.mem_cons_self) height
      · exact ih hrest fun st' hst' => hheight st' (List.mem_cons_of_mem _ hst')

/-! ## Steps with room -/

namespace Cells

/-- The step does not find the stack full, and a fault leaves no more than `limit` cells. -/
def Fits (limit : Nat) : Step Cells → Prop
  | .ok _ => True
  | .error (.stackOverflow .., _) => False
  | .error (_, s) => s.stack.length ≤ limit

variable {capacity next limit : Nat} {s : Cells}

theorem fits_push (cell : Cell) (hlimit : Cell.width * limit ≤ capacity)
    (h : s.stack.length < limit) : Fits limit (s.push capacity next cell) := by
  rw [push_of_le cell (Nat.le_trans (Nat.mul_le_mul_left _ h) hlimit)]
  trivial

theorem fits_pop {rest : Cell × Cells → Step Cells} (h : s.stack.length ≤ limit)
    (hrest : ∀ cell (s' : Cells), s'.stack.length < s.stack.length →
      Fits limit (rest (cell, s'))) :
    Fits limit (s.pop >>= rest) := by
  obtain ⟨pc, stack, store⟩ := s
  cases stack with
  | nil => exact h
  | cons cell cells => exact hrest cell ⟨pc, cells, store⟩ (Nat.lt_succ_self _)

theorem fits_unary (op : Cell → Cell) (hlimit : Cell.width * limit ≤ capacity)
    (h : s.stack.length ≤ limit) : Fits limit (s.unary capacity next op) :=
  fits_pop h fun _ _ hlt => fits_push _ hlimit (Nat.lt_of_lt_of_le hlt h)

theorem fits_binary (op : Cell → Cell → Option Cell) (hlimit : Cell.width * limit ≤ capacity)
    (h : s.stack.length ≤ limit) : Fits limit (s.binary capacity next op) := by
  refine fits_pop h fun a s' hlt => ?_
  have h' : s'.stack.length ≤ limit := Nat.le_of_lt (Nat.lt_of_lt_of_le hlt h)
  refine fits_pop h' fun b s'' hlt' => ?_
  have hlt'' : s''.stack.length < limit := Nat.lt_of_lt_of_le hlt' h'
  simp only
  split
  · exact Nat.le_of_lt hlt''
  · exact fits_push _ hlimit hlt''

/-- An instruction between whose heights there is room finds the stack full neither before nor
after it takes its operands. -/
theorem fits_act (i : Instr) (hlimit : Cell.width * limit ≤ capacity)
    (h : s.stack.length ≤ limit) (hnext : s.stack.length - i.pops + i.pushes ≤ limit) :
    Fits limit (s.act capacity i) := by
  cases i with
  | constInt value => exact fits_push value hlimit hnext
  | load slot => exact fits_push _ hlimit hnext
  | store slot => exact fits_pop h fun _ _ _ => trivial
  | add | sub | mul | div | mod =>
      simp only [act]
      exact fits_binary _ hlimit h
  | intToFloat | floatToInt => exact fits_unary _ hlimit h

end Cells

/-! ## Machines with room -/

/-- The machine has no more than `limit` cells on its stack, and no more to come: it runs code whose
peak it has room for, or it came to a halt that is no full stack. -/
inductive Vm.Within (limit : Nat) (vm : Vm) : Prop where
  | running {before : Bytes} {rest : List Instr} {capacity : Nat} {s : Cells} :
      vm.Holds (before ++ assemble rest) capacity s → s.pc = before.length →
      peak rest s.stack.length ≤ limit → Cell.width * limit ≤ capacity → Within limit vm
  | halted {halt : Halt} :
      vm.status = .halted halt → vm.stack.position ≤ Cell.width * limit →
      (∀ requested position capacity,
        halt ≠ .fault (.stackOverflow requested position capacity)) → Within limit vm

namespace Vm.Within

variable {limit : Nat} {vm : Vm}

theorem load (vm : Vm) {code : List Instr} (hpeak : peak code 0 ≤ limit)
    (hlimit : Cell.width * limit ≤ vm.stack.capacity) : (vm.load (assemble code)).Within limit :=
  have hholds : (vm.load (assemble code)).Holds ([] ++ assemble code) vm.stack.capacity {} :=
    ⟨rfl, rfl, rfl, rfl, rfl, rfl, fun _ => rfl⟩
  .running hholds rfl hpeak hlimit

theorem position_le (h : vm.Within limit) : vm.stack.position ≤ Cell.width * limit := by
  cases h with
  | running hholds _ hpeak _ =>
      rw [hholds.position_eq]
      exact Nat.mul_le_mul_left _ (Nat.le_trans (le_peak _ _) hpeak)
  | halted _ hposition _ => exact hposition

theorem status_ne (h : vm.Within limit) (requested position capacity : Nat) :
    vm.status ≠ .halted (.fault (.stackOverflow requested position capacity)) := by
  intro hstatus
  cases h with
  | running hholds _ _ _ =>
      rw [hholds.running] at hstatus
      cases hstatus
  | halted hhalted _ hne =>
      rw [hhalted, Status.halted.injEq] at hstatus
      exact hne requested position capacity hstatus

/-- At the end of its code a machine halts where it is. -/
theorem step_end {before : Bytes} {capacity : Nat} {s : Cells}
    (hholds : vm.Holds (before ++ assemble []) capacity s) (hpc : s.pc = before.length)
    (h : vm.Within limit) : vm.step.Within limit := by
  have hend : vm.code[vm.pc]? = none := by
    rw [hholds.code_eq, hholds.pc_eq, hpc]
    simp [assemble]
  have hstep : vm.step = vm.halt .normal := by
    simp only [Vm.step, hholds.running, hend]
  rw [hstep]
  refine .halted rfl h.position_le ?_
  intro _ _ _ hhalt
  cases hhalt

/-- An instruction leaves the machine in front of code with a peak that is no higher. -/
theorem step_cons {before : Bytes} {i : Instr} {rest : List Instr} {capacity : Nat} {s : Cells}
    (hholds : vm.Holds (before ++ assemble (i :: rest)) capacity s) (hpc : s.pc = before.length)
    (hpeak : peak (i :: rest) s.stack.length ≤ limit) (hlimit : Cell.width * limit ≤ capacity) :
    vm.step.Within limit := by
  obtain ⟨hnow, hnext⟩ := Nat.max_le.mp hpeak
  have hstep := hholds.step_cons hpc
  have hmoves : s.Moves _ _ _ (s.act capacity i) := Cells.moves_act i
  have hfits := Cells.fits_act i hlimit hnow (Nat.le_trans (le_peak rest _) hnext)
  rcases hact : s.act capacity i with ⟨fault, s'⟩ | s'
  · rw [hact] at hstep hfits
    obtain ⟨vm', hholds', hhalt⟩ := hstep
    have hlength : s'.stack.length ≤ limit ∧
        ∀ requested position capacity, fault ≠ .stackOverflow requested position capacity := by
      cases fault with
      | stackOverflow => exact hfits.elim
      | stackUnderflow | divideByZero | unknownOpcode | truncatedInstruction =>
          exact ⟨hfits, by simp⟩
    have hstatus : vm.step.status = .halted (.fault fault) := by
      rw [hhalt]
      rfl
    refine .halted hstatus ?_ ?_
    · rw [hhalt, Vm.halt, hholds'.position_eq]
      exact Nat.mul_le_mul_left _ hlength.1
    · intro requested position capacity heq
      exact hlength.2 requested position capacity (Halt.fault.inj heq)
  · rw [hact] at hmoves
    obtain ⟨-, hpops, hlength⟩ := hmoves
    have hheight : s'.stack.length = s.stack.length - i.pops + i.pushes := by omega
    obtain ⟨hholds', hpc'⟩ := hholds.step_cons_of_act hpc hact
    exact .running hholds' hpc' (hheight ▸ hnext) hlimit

theorem step (h : vm.Within limit) : vm.step.Within limit := by
  have hwithin := h
  cases h with
  | @running before rest capacity s hholds hpc hpeak hlimit =>
      cases rest with
      | nil => exact step_end hholds hpc hwithin
      | cons i rest => exact step_cons hholds hpc hpeak hlimit
  | halted hstatus _ _ =>
      have hstep : vm.step = vm := by simp only [Vm.step, hstatus]
      rw [hstep]
      exact hwithin

end Vm.Within

/-! ## Compiled scripts -/

/-- A new machine that has room for two cells at each depth of the brackets, and three more, never
finds its stack full with the bytecode of a script. It has no more cells than that on its stack at
any time, even if there is room for more. -/
theorem compile_never_overflows {registry : Registry} {source : String} {c : Compilation}
    (hc : compile registry source = .ok c) :
    ∃ statements, globalStatements source.toList = .ok statements ∧
      ∀ stackSize, 8 * greatestDepth statements + 12 ≤ (Vm.new stackSize).stack.capacity →
        (∀ requested position capacity, ((Vm.new stackSize).run c.bytecode).status ≠
          .halted (.fault (.stackOverflow requested position capacity))) ∧
        ∀ count, (((Vm.new stackSize).load c.bytecode).runSteps count).stack.position ≤
          8 * greatestDepth statements + 12 := by
  obtain ⟨statements, program, hstatements, hderives, hprogram, rfl, -, -, hcode⟩ :=
    Context.compile_eq_ok (Prod.ext hc rfl)
  refine ⟨statements, hstatements, ?_⟩
  intro stackSize hcapacity
  have hpeak : peak (Program.code registry {} program) 0 ≤ 2 * greatestDepth statements + 3 :=
    Nat.le_trans (hprogram.peak_le hderives.height_le) (Nat.le_of_eq (Nat.zero_add _))
  have hwidth : Cell.width * (2 * greatestDepth statements + 3) =
      8 * greatestDepth statements + 12 := by
    simp only [Cell.width]
    omega
  have hload : ((Vm.new stackSize).load (assemble (Program.code registry {} program))).Within
      (2 * greatestDepth statements + 3) :=
    .load _ hpeak (hwidth ▸ hcapacity)
  have hstep : ∀ vm : Vm, vm.Within (2 * greatestDepth statements + 3) →
      vm.step.Within (2 * greatestDepth statements + 3) := fun _ h => h.step
  simp only [Compilation.bytecode, Context.compilation, hcode]
  constructor
  · exact (Vm.execute_keeps hstep hload).status_ne
  · intro count
    rw [← hwidth]
    exact (Vm.runSteps_keeps hstep hload count).position_le

/-- A sum and a product wait for their right operands at both depths, and there is not a byte to
spare. -/
theorem compile_never_overflows_two_depths :
    ∃ c statements, compile .builtins "int32 a = 2; a = a + a * (a - a * a);" = .ok c ∧
      globalStatements "int32 a = 2; a = a + a * (a - a * a);".toList = .ok statements ∧
      greatestDepth statements = 1 ∧
      (∀ requested position capacity, ((Vm.new (some 20)).run c.bytecode).status ≠
        .halted (.fault (.stackOverflow requested position capacity))) ∧
      ((Vm.new (some 19)).run c.bytecode).status =
        .halted (.fault (.stackOverflow 4 16 19)) := by
  have hc : compile .builtins "int32 a = 2; a = a + a * (a - a * a);" =
      .ok ((compile .builtins "int32 a = 2; a = a + a * (a - a * a);").toOption.getD
        ⟨[], {}, []⟩) :=
    toOption_eq_some_iff.mp (by decide +kernel)
  obtain ⟨statements, hstatements, hroom⟩ := compile_never_overflows hc
  have hdepth : greatestDepth statements = 1 := by
    have hsome : (globalStatements
        "int32 a = 2; a = a + a * (a - a * a);".toList).toOption.map greatestDepth = some 1 := by
      decide +kernel
    rw [hstatements] at hsome
    exact Option.some.inj hsome
  refine ⟨_, statements, hc, hstatements, hdepth, ?_, by decide +kernel⟩
  exact (hroom (some 20) (by rw [hdepth]; decide)).1

end StackScript
