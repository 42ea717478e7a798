import StackScript.Proofs.MachineInvariant

/-! # Bytes that are executed as instructions

The machine on bytes reads its operands in place and keeps its cells as bytes. Seen from outside it
is the machine on cells, stepping through the instructions that decoding finds in its code. -/

namespace StackScript

/-! ## Bytes as cells -/

/-- The cells that lie one behind the other in a buffer. -/
def Bytes.cells : Bytes → List Cell
  | a :: b :: c :: d :: rest => Cell.ofBytes [a, b, c, d] :: cells rest
  | _ => []

namespace LittleEndian

theorem encode_decode (bytes : Bytes) : encode bytes.length (decode bytes) = bytes := by
  induction bytes with
  | nil => rfl
  | cons byte bytes ih =>
      have hlow : (byte.toNat + 256 * decode bytes) % 256 = byte.toNat := by
        have hbyte := byte.toNat_lt
        omega
      have hhigh : (byte.toNat + 256 * decode bytes) / 256 = decode bytes := by
        have hbyte := byte.toNat_lt
        omega
      rw [decode, List.length_cons, encode, hlow, hhigh, ih, UInt8.ofNat_toNat]

theorem decode_lt (bytes : Bytes) : decode bytes < Nat.pow 256 bytes.length := by
  induction bytes with
  | nil => exact Nat.one_pos
  | cons byte bytes ih =>
      have hbyte := byte.toNat_lt
      have hpow : Nat.pow 256 (bytes.length + 1) = 256 * Nat.pow 256 bytes.length :=
        Nat.mul_comm _ _
      rw [decode, List.length_cons, hpow]
      omega

end LittleEndian

theorem Cell.toBytes_ofBytes {bytes : Bytes} (h : bytes.length = 4) :
    (ofBytes bytes).toBytes = bytes := by
  have hlt : LittleEndian.decode bytes < 2 ^ 32 := by
    have hdecode := LittleEndian.decode_lt bytes
    rw [h] at hdecode
    exact hdecode
  rw [toBytes, ofBytes, BitVec.toNat_ofNat, Nat.mod_eq_of_lt hlt, width, ← h,
    LittleEndian.encode_decode]

namespace Bytes

theorem cells_toBytes_append (cell : Cell) (rest : Bytes) :
    cells (cell.toBytes ++ rest) = cell :: cells rest :=
  congrArg (· :: cells rest) (Cell.ofBytes_toBytes cell)

theorem cells_flatMap (cs : List Cell) : cells (cs.flatMap Cell.toBytes) = cs := by
  induction cs with
  | nil => rfl
  | cons cell cs ih => rw [List.flatMap_cons, cells_toBytes_append, ih]

/-- Whole cells are their bytes. -/
theorem flatMap_cells {bytes : Bytes} (h : 4 ∣ bytes.length) :
    (cells bytes).flatMap Cell.toBytes = bytes := by
  fun_induction cells bytes with
  | case1 a b c d rest ih =>
      have hrest : 4 ∣ rest.length := by
        simp only [List.length_cons] at h
        omega
      rw [List.flatMap_cons, ih hrest, Cell.toBytes_ofBytes rfl]
      rfl
  | case2 bytes hshort =>
      match bytes with
      | [] => rfl
      | [_] | [_, _] | [_, _, _] => simp at h
      | a :: b :: c :: d :: rest => exact absurd rfl (hshort a b c d rest)

end Bytes

/-! ## The machine seen as cells -/

namespace Vm

/-- The cells of a machine on bytes. -/
def view (vm : Vm) : Cells where
  pc := vm.pc
  stack := vm.stack.bytes.cells.reverse
  store slot := (vm.store.read? slot.toNat Cell.width).map Cell.ofBytes

@[simp] theorem view_halt (vm : Vm) (halt : Halt) : (vm.halt halt).view = vm.view := rfl

theorem Holds.view_eq {vm : Vm} {code : Bytes} {capacity : Nat} {s : Cells}
    (h : vm.Holds code capacity s) : vm.view = s := by
  have hstack : vm.stack.bytes.cells.reverse = s.stack := by
    rw [h.bytes_eq, Bytes.cells_flatMap, List.reverse_reverse]
  have hstore : ∀ slot : UInt8,
      (vm.store.read? slot.toNat Cell.width).map Cell.ofBytes = s.store slot := by
    intro slot
    rw [VariableStore.read?, h.store_eq]
    cases s.store slot with
    | none => rfl
    | some cell => simp [Option.filter, Cell.width]
  rw [view, hstack, h.pc_eq, funext hstore]

/-- A machine that keeps the invariant holds the cells that are seen in it. -/
theorem Sound.holds_view {vm : Vm} (h : vm.Sound) (hrunning : vm.status = .running) :
    vm.Holds vm.code vm.stack.capacity vm.view := by
  have hbytes : vm.stack.bytes.cells.flatMap Cell.toBytes = vm.stack.bytes :=
    Bytes.flatMap_cells h.stack.aligned
  refine ⟨rfl, rfl, hrunning, rfl, ?_, ?_, ?_⟩
  · rw [view, List.reverse_reverse, hbytes]
  · have hlength : ∀ cs : List Cell, (cs.flatMap Cell.toBytes).length = 4 * cs.length := by
      intro cs
      induction cs with
      | nil => rfl
      | cons cell cs ih =>
          rw [List.flatMap_cons, List.length_append, Cell.length_toBytes, ih, List.length_cons]
          omega
    have hposition : vm.stack.position / 4 = vm.view.stack.length := by
      rw [OperandStack.position, ← hbytes, hlength, Nat.mul_div_cancel_left _ (by decide), view,
        List.length_reverse]
    rw [h.stack.widths_eq, hposition, List.map_const']
    rfl
  · intro slot
    cases hslot : vm.store.get? slot.toNat with
    | none => simp [view, VariableStore.read?, hslot]
    | some value =>
        have hwidth := h.store.width_eq _ value hslot
        simp [view, VariableStore.read?, hslot, Option.filter, hwidth, Cell.width,
          Cell.toBytes_ofBytes hwidth]

end Vm

/-! ## Faults -/

/-- The faults that an instruction at an offset can raise. -/
inductive Fault.RaisedAt (offset : Nat) : Fault → Prop where
  | stackOverflow (requested position capacity : Nat) :
      RaisedAt offset (.stackOverflow requested position capacity)
  | stackUnderflow (requested position : Nat) : RaisedAt offset (.stackUnderflow requested position)
  | divideByZero : RaisedAt offset (.divideByZero offset)

namespace Cells

/-- A step that faults is one of an instruction, and the machine stays where it is. -/
def StopsInPlace (s : Cells) : Step Cells → Prop
  | .ok _ => True
  | .error (fault, s') => s'.pc = s.pc ∧ fault.RaisedAt s.pc

variable {capacity next : Nat} {s : Cells}

theorem stopsInPlace_push (cell : Cell) : s.StopsInPlace (s.push capacity next cell) := by
  unfold push
  split
  · exact ⟨rfl, .stackOverflow _ _ _⟩
  · trivial

theorem stopsInPlace_pop {rest : Cell × Cells → Step Cells}
    (h : ∀ cell (s' : Cells), s'.pc = s.pc → s.StopsInPlace (rest (cell, s'))) :
    s.StopsInPlace (s.pop >>= rest) := by
  obtain ⟨pc, stack, store⟩ := s
  cases stack with
  | nil => exact ⟨rfl, .stackUnderflow _ _⟩
  | cons cell cells => exact h cell ⟨pc, cells, store⟩ rfl

theorem StopsInPlace.trans {s' : Cells} {result : Step Cells} (h : s'.StopsInPlace result)
    (hpc : s'.pc = s.pc) : s.StopsInPlace result := by
  unfold StopsInPlace at h ⊢
  rwa [hpc] at h

theorem stopsInPlace_unary (op : Cell → Cell) : s.StopsInPlace (s.unary capacity next op) :=
  stopsInPlace_pop fun _ _ hpc => (stopsInPlace_push _).trans hpc

theorem stopsInPlace_binary (op : Cell → Cell → Option Cell) :
    s.StopsInPlace (s.binary capacity next op) := by
  refine stopsInPlace_pop fun a s' hpc => (stopsInPlace_pop fun b s'' hpc' => ?_).trans hpc
  simp only
  split
  · exact ⟨hpc', hpc' ▸ .divideByZero⟩
  · exact (stopsInPlace_push _).trans hpc'

theorem stopsInPlace_act (i : Instr) : s.StopsInPlace (s.act capacity i) := by
  cases i with
  | constInt value => exact stopsInPlace_push value
  | load slot => exact stopsInPlace_push _
  | store slot => exact stopsInPlace_pop fun _ _ _ => trivial
  | add | sub | mul | div | mod =>
      simp only [act]
      exact stopsInPlace_binary _
  | intToFloat | floatToInt => exact stopsInPlace_unary _

end Cells

namespace Vm

/-- From `vm` to `vm'` the machine went on, or it stopped with its store as it was. -/
def KeepsStore (vm vm' : Vm) : Prop := vm'.status ≠ .running → vm'.store = vm.store

variable {vm : Vm}

theorem keepsStore_halt (vm : Vm) (halt : Halt) : KeepsStore vm (vm.halt halt) := fun _ => rfl

theorem keepsStore_pushCell (cell : Cell) (next : Nat) :
    KeepsStore vm (vm.pushCell cell next) := by
  unfold pushCell
  split
  · exact keepsStore_halt vm _
  · exact fun _ => rfl

theorem keepsStore_popCell {use : Vm → Cell → Vm}
    (huse : ∀ stack cell, KeepsStore { vm with stack } (use { vm with stack } cell)) :
    KeepsStore vm (vm.popCell use) := by
  unfold popCell
  split
  · exact keepsStore_halt vm _
  · exact keepsStore_halt vm _
  · exact huse _ _

theorem keepsStore_unary (op : Cell → Cell) (next : Nat) : KeepsStore vm (vm.unary op next) :=
  keepsStore_popCell fun _ _ => keepsStore_pushCell _ _

theorem keepsStore_binary (op : Cell → Cell → Except Fault Cell) (next : Nat) :
    KeepsStore vm (vm.binary op next) := by
  refine keepsStore_popCell fun _ a => keepsStore_popCell fun _ b => ?_
  split
  · exact keepsStore_halt _ _
  · exact keepsStore_pushCell _ _

theorem keepsStore_exec (hrunning : vm.status = .running) (op : Opcode) :
    KeepsStore vm (vm.exec op) := by
  cases op with
  | constInt =>
      simp only [exec]
      split
      · exact keepsStore_halt vm _
      · exact keepsStore_pushCell _ _
  | store =>
      simp only [exec]
      split
      · exact keepsStore_halt vm _
      · exact keepsStore_popCell fun _ _ hstatus => absurd hrunning hstatus
  | load =>
      simp only [exec]
      split
      · exact keepsStore_halt vm _
      · exact keepsStore_pushCell _ _
  | add | sub | mul | div | mod => exact keepsStore_binary _ _
  | intToFloat | floatToInt => exact keepsStore_unary _ _

theorem keepsStore_step : KeepsStore vm vm.step := by
  unfold step
  split
  · exact fun _ => rfl
  · rename_i hrunning
    split
    · exact keepsStore_halt vm _
    · split
      · exact keepsStore_halt vm _
      · exact keepsStore_exec hrunning _

end Vm

/-! ## Decoded instructions -/

/-- What cannot be decoded stops the machine before it does anything. -/
theorem Vm.step_of_decode_error {vm : Vm} (hrunning : vm.status = .running)
    (hpc : vm.pc < vm.code.length) {e : DecodeError}
    (he : Instr.decode vm.code vm.pc = .error e) :
    vm.step = vm.halt (.fault (.ofDecodeError e)) := by
  have hbyte : vm.code[vm.pc]? = some vm.code[vm.pc] := List.getElem?_eq_getElem hpc
  simp only [Instr.decode, hbyte] at he
  simp only [step, hrunning, hbyte]
  cases hop : Opcode.ofByte? vm.code[vm.pc] with
  | none =>
      simp only [hop, Except.error.injEq] at he
      rw [← he, Fault.ofDecodeError]
  | some op =>
      simp only [hop] at he
      cases hoperand : Instr.ofOpcode? vm.code (vm.pc + 1) op with
      | some i => simp [hoperand] at he
      | none =>
          simp only [hoperand, Except.error.injEq] at he
          rw [← he, Fault.ofDecodeError]
          cases op with
          | constInt | store | load =>
              simp only [Instr.ofOpcode?, Option.map_eq_none_iff] at hoperand
              simp only [exec, hoperand]
          | _ => cases hoperand

theorem Instr.size_of_decode {buffer : Bytes} {offset n : Nat} {i : Instr}
    (h : decode buffer offset = .ok (i, n)) : n = i.size := by
  unfold decode at h
  split at h
  · cases h
  · split at h
    · cases h
    · rename_i op _
      split at h
      · cases h
      · rename_i j hj
        cases h
        cases op with
        | constInt | store | load =>
            obtain ⟨_, -, rfl⟩ := Option.map_eq_some_iff.mp hj
            rfl
        | _ =>
            cases hj
            rfl

/-! ## Refinement -/

/-- A step goes by what is decoded at the program counter. -/
structure Vm.FollowsDecoding (vm : Vm) : Prop where
  of_error : ∀ e, Instr.decode vm.code vm.pc = .error e →
    vm.step = vm.halt (.fault (.ofDecodeError e))
  of_ok : ∀ i n s, Instr.decode vm.code vm.pc = .ok (i, n) →
    vm.view.act vm.stack.capacity i = .ok s →
    vm.step.status = .running ∧ vm.step.view = s ∧ vm.step.pc = vm.pc + n ∧
      vm.step.code = vm.code ∧ vm.step.stack.capacity = vm.stack.capacity
  of_fault : ∀ i n fault s, Instr.decode vm.code vm.pc = .ok (i, n) →
    vm.view.act vm.stack.capacity i = .error (fault, s) →
    vm.step.status = .halted (.fault fault) ∧ fault.RaisedAt vm.pc ∧
      vm.step.view = s ∧ vm.step.pc = vm.pc ∧ vm.step.store = vm.store

theorem Vm.Sound.followsDecoding {vm : Vm} (h : vm.Sound) (hrunning : vm.status = .running)
    (hpc : vm.pc < vm.code.length) : vm.FollowsDecoding := by
  have hholds := h.holds_view hrunning
  refine ⟨fun e he => Vm.step_of_decode_error hrunning hpc he, ?_, ?_⟩
  · intro i n s hdecode hact
    have hstep : vm.step.Holds vm.code vm.stack.capacity s := by
      have hstep := hholds.step hdecode
      rwa [hact] at hstep
    have hmoves : vm.view.Moves _ _ _ (vm.view.act vm.stack.capacity i) := Cells.moves_act i
    rw [hact] at hmoves
    refine ⟨hstep.running, hstep.view_eq, ?_, hstep.code_eq, hstep.capacity_eq⟩
    rw [hstep.pc_eq, hmoves.1, Instr.size_of_decode hdecode]
    rfl
  · intro i n fault s hdecode hact
    obtain ⟨vm', hholds', hstep⟩ :
        vm.step.Reaches vm.code vm.stack.capacity (.error (fault, s)) := by
      have hstep := hholds.step hdecode
      rwa [hact] at hstep
    have hstops : vm.view.StopsInPlace (vm.view.act vm.stack.capacity i) :=
      Cells.stopsInPlace_act i
    rw [hact] at hstops
    have hstatus : vm.step.status = .halted (.fault fault) := by
      rw [hstep]
      rfl
    have hview : vm.step.view = s := by rw [hstep, view_halt, hholds'.view_eq]
    refine ⟨hstatus, hstops.2, hview, ?_, Vm.keepsStore_step (by simp [hstatus])⟩
    exact (congrArg Cells.pc hview).trans hstops.1

/-- Wherever calls have brought a machine, a step is the step of the instruction that is decoded at
the program counter, on the cells that are seen in the machine; and assembled instructions end as
they do on cells. -/
theorem Vm.refines_instructions :
    (∀ vm : Vm, vm.Reachable → vm.status = .running → vm.pc < vm.code.length →
      vm.FollowsDecoding) ∧
    ∀ (vm : Vm) (instrs : List Instr),
      (vm.run (assemble instrs)).status =
        .halted (Cells.final (Cells.run vm.stack.capacity instrs {})).1 ∧
      (vm.run (assemble instrs)).view =
        (Cells.final (Cells.run vm.stack.capacity instrs {})).2 := by
  refine ⟨fun vm h hrunning hpc => h.sound.followsDecoding hrunning hpc, fun vm instrs => ?_⟩
  obtain ⟨vm', hholds, hrun⟩ := vm.run_assemble instrs
  rw [hrun, view_halt, hholds.view_eq]
  exact ⟨rfl, rfl⟩

/-- A machine that is about to divide five by zero, in front of a constant that is cut off. -/
def Vm.beforeDivision : Vm where
  stackSize := some 8
  code := [0, 7, 0, 0, 0, 1, 3, 0, 5, 0, 0, 0, 0, 0, 0, 0, 0, 6, 0, 1]
  pc := 17
  stack := { capacity := 8, bytes := [5, 0, 0, 0, 0, 0, 0, 0], widths := [4, 4] }
  store := ⟨[none, none, none, some [7, 0, 0, 0]]⟩
  status := .running

theorem Vm.refines_instructions_beforeDivision :
    Vm.beforeDivision.Reachable ∧ Vm.beforeDivision.view.stack = [0, 5] ∧
      Vm.beforeDivision.step.status = .halted (.fault (.divideByZero 17)) ∧
      Vm.beforeDivision.step.view.stack = [] ∧ Vm.beforeDivision.step.pc = 17 ∧
      Vm.beforeDivision.step.store = Vm.beforeDivision.store := by
  have hreachable : Vm.beforeDivision.Reachable := by
    refine ⟨some 8, [.load Vm.beforeDivision.code, .runSteps 4], ?_⟩
    decide +kernel
  have hfollows := Vm.refines_instructions.1 Vm.beforeDivision hreachable rfl (by decide)
  obtain ⟨hstatus, -, hview, hpc, hstore⟩ := hfollows.of_fault .div 1 _ _ rfl rfl
  exact ⟨hreachable, rfl, hstatus, congrArg Cells.stack hview, hpc, hstore⟩

end StackScript
