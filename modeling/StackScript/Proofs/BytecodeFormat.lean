import Mathlib.Logic.ExistsUnique
import Mathlib.Logic.Function.Defs
import StackScript.Bytecode.Listing
import StackScript.Proofs.InstructionRefinement

/-! # Instructions and their bytes

Bytecode has no marks between its instructions: where one ends is known from its operation code
alone. Even so, what was assembled is read back as it was, and what can be read to its end is what
was read, assembled. -/

namespace StackScript

/-! ## One instruction -/

theorem Opcode.toByte_of_ofByte? {byte : UInt8} {op : Opcode} (h : ofByte? byte = some op) :
    op.toByte = byte := by
  unfold ofByte? at h
  split at h
  all_goals
    cases h
    try rfl

/-- A slice is the start of what lies behind its offset. -/
theorem Bytes.drop_of_slice? {buffer bytes : Bytes} {offset width : Nat}
    (h : buffer.slice? offset width = some bytes) :
    bytes.length = width ∧ buffer.drop offset = bytes ++ buffer.drop (offset + width) := by
  unfold slice? at h
  split at h
  · rename_i hle
    cases h
    constructor
    · rw [List.length_take, List.length_drop]
      omega
    · rw [← List.drop_drop, List.take_append_drop]
  · cases h

theorem Bytes.drop_of_getElem? {buffer : Bytes} {offset : Nat} {byte : UInt8}
    (h : buffer[offset]? = some byte) : buffer.drop offset = byte :: buffer.drop (offset + 1) := by
  obtain ⟨hlt, rfl⟩ := List.getElem?_eq_some_iff.mp h
  exact List.drop_eq_getElem_cons hlt

namespace Instr

/-- The operand bytes of an instruction stand where its operand was read. -/
theorem operandBytes_of_ofOpcode? {buffer : Bytes} {operand : Nat} {op : Opcode} {i : Instr}
    (h : ofOpcode? buffer operand op = some i) :
    i.opcode = op ∧
      buffer.drop operand = i.operandBytes ++ buffer.drop (operand + op.operandSize) := by
  cases op with
  | constInt =>
      obtain ⟨value, hvalue, rfl⟩ := Option.map_eq_some_iff.mp h
      obtain ⟨bytes, hbytes, rfl⟩ := Option.map_eq_some_iff.mp hvalue
      obtain ⟨hlength, hdrop⟩ := Bytes.drop_of_slice? hbytes
      refine ⟨rfl, ?_⟩
      rw [operandBytes, Cell.toBytes_ofBytes hlength]
      exact hdrop
  | store =>
      obtain ⟨slot, hslot, rfl⟩ := Option.map_eq_some_iff.mp h
      exact ⟨rfl, Bytes.drop_of_getElem? hslot⟩
  | load =>
      obtain ⟨slot, hslot, rfl⟩ := Option.map_eq_some_iff.mp h
      exact ⟨rfl, Bytes.drop_of_getElem? hslot⟩
  | add | sub | mul | div | mod | intToFloat | floatToInt =>
      cases h
      exact ⟨rfl, rfl⟩

/-- What is decoded at an offset is encoded there. -/
theorem drop_of_decode {buffer : Bytes} {offset n : Nat} {i : Instr}
    (h : decode buffer offset = .ok (i, n)) :
    buffer.drop offset = i.encode ++ buffer.drop (offset + n) := by
  unfold decode at h
  split at h
  · cases h
  · rename_i byte hbyte
    split at h
    · cases h
    · rename_i op hop
      split at h
      · cases h
      · rename_i j hj
        cases h
        obtain ⟨rfl, hoperand⟩ := operandBytes_of_ofOpcode? hj
        rw [Bytes.drop_of_getElem? hbyte, hoperand, encode, Opcode.toByte_of_ofByte? hop,
          Nat.add_assoc]
        rfl

end Instr

/-! ## Whole buffers -/

/-- Length of some encoded instructions in bytes. -/
def codeSize : List Instr → Nat
  | [] => 0
  | i :: instrs => i.size + codeSize instrs

theorem assemble_cons (i : Instr) (instrs : List Instr) :
    assemble (i :: instrs) = i.encode ++ assemble instrs :=
  List.flatMap_cons

theorem length_assemble (instrs : List Instr) : (assemble instrs).length = codeSize instrs := by
  induction instrs with
  | nil => rfl
  | cons i instrs ih =>
      rw [assemble_cons, List.length_append, Instr.length_encode, ih, codeSize]

theorem assemble_append (xs ys : List Instr) : assemble (xs ++ ys) = assemble xs ++ assemble ys :=
  List.flatMap_append

/-- Each instruction is decoded behind the bytes of those before it. -/
theorem decode_assemble {instrs : List Instr} {index : Nat} {i : Instr}
    (h : instrs[index]? = some i) :
    Instr.decode (assemble instrs) (codeSize (instrs.take index)) = .ok (i, i.size) := by
  obtain ⟨hlt, rfl⟩ := List.getElem?_eq_some_iff.mp h
  have hsplit : assemble (instrs.take index ++ instrs.drop index) =
      assemble (instrs.take index) ++
        (instrs[index].encode ++ assemble (instrs.drop (index + 1))) := by
    rw [assemble_append, List.drop_eq_getElem_cons hlt, assemble_cons]
  rw [List.take_append_drop] at hsplit
  rw [hsplit, ← length_assemble]
  exact Instr.decode_append _ _ _

theorem instructionsFrom_of_decode_error {buffer : Bytes} {offset : Nat} {e : DecodeError}
    (hlt : offset < buffer.length) (h : Instr.decode buffer offset = .error e) :
    instructionsFrom buffer offset = .error e := by
  rw [instructionsFrom, if_pos hlt]
  split
  · rename_i e' he
    rw [h] at he
    cases he
    rfl
  · rename_i hi
    rw [h] at hi
    cases hi

theorem instructionsFrom_of_decode_ok {buffer : Bytes} {offset size : Nat} {i : Instr}
    (h : Instr.decode buffer offset = .ok (i, size)) :
    instructionsFrom buffer offset =
      (instructionsFrom buffer (offset + size)).map (i :: ·) := by
  rw [instructionsFrom, if_pos (Instr.decode_bounds h).2]
  split
  · rename_i he
    rw [h] at he
    cases he
  · rename_i hi
    rw [h] at hi
    cases hi
    rfl

/-- Behind any bytes, assembled instructions are read back. -/
theorem instructionsFrom_append (before : Bytes) (instrs : List Instr) :
    instructionsFrom (before ++ assemble instrs) before.length = .ok instrs := by
  induction instrs generalizing before with
  | nil =>
      rw [instructionsFrom, if_neg]
      simp [assemble]
  | cons i instrs ih =>
      have hdecode := Instr.decode_append before (assemble instrs) i
      have hrest := ih (before ++ i.encode)
      rw [List.append_assoc, List.length_append, Instr.length_encode] at hrest
      rw [assemble_cons, instructionsFrom_of_decode_ok hdecode, hrest]
      rfl

/-- What is read up to the end of a buffer is assembled there. -/
theorem assemble_of_instructionsFrom {buffer : Bytes} {offset : Nat} {instrs : List Instr}
    (h : instructionsFrom buffer offset = .ok instrs) : buffer.drop offset = assemble instrs := by
  fun_induction instructionsFrom buffer offset generalizing instrs with
  | case1 offset _ e _ => cases h
  | case2 offset _ i size hdecode _ ih =>
      cases hrest : instructionsFrom buffer (offset + size) with
      | error e =>
          rw [hrest] at h
          cases h
      | ok rest =>
          rw [hrest] at h
          cases h
          rw [Instr.drop_of_decode hdecode, ih hrest, assemble_cons]
  | case3 offset hend =>
      cases h
      exact List.drop_of_length_le (Nat.le_of_not_lt hend)

theorem instructions_assemble (instrs : List Instr) : instructions (assemble instrs) = .ok instrs :=
  instructionsFrom_append [] instrs

theorem instructions_eq_ok_iff {buffer : Bytes} {instrs : List Instr} :
    instructions buffer = .ok instrs ↔ assemble instrs = buffer := by
  constructor
  · intro h
    exact (assemble_of_instructionsFrom h).symm
  · rintro rfl
    exact instructions_assemble instrs

theorem assemble_injective : Function.Injective assemble := by
  intro xs ys h
  have hread := instructions_assemble xs
  rw [h, instructions_assemble ys] at hread
  exact (Except.ok.inj hread).symm

/-- Reading inverts assembling, instruction by instruction and as a whole, and assembling inverts
reading. So no two programs share their bytecode, and a buffer that can be read to its end has one
reading. -/
theorem instructions_assemble_inverse :
    (∀ instrs : List Instr, instructions (assemble instrs) = .ok instrs ∧
      ∀ index i, instrs[index]? = some i →
        Instr.decode (assemble instrs) (codeSize (instrs.take index)) = .ok (i, i.size)) ∧
    (∀ (buffer : Bytes) (instrs : List Instr), instructions buffer = .ok instrs →
      assemble instrs = buffer) ∧
    Function.Injective assemble ∧
    ∀ (buffer : Bytes) (instrs : List Instr), instructions buffer = .ok instrs →
      ∃! reading, assemble reading = buffer := by
  refine ⟨fun instrs => ⟨instructions_assemble instrs, fun index i => decode_assemble⟩,
    fun buffer instrs => instructions_eq_ok_iff.mp, assemble_injective, ?_⟩
  intro buffer instrs h
  have hassemble := instructions_eq_ok_iff.mp h
  refine ⟨instrs, hassemble, ?_⟩
  intro reading hreading
  exact assemble_injective (hreading.trans hassemble.symm)

/-- A negative constant and a slot lie in the bytes of four instructions, of which the third starts
at the seventh byte. -/
theorem instructions_assemble_inverse_negativeConstant :
    instructions [0, 0xf9, 0xff, 0xff, 0xff, 1, 3, 2, 3, 7] =
        .ok [.constInt (-7), .store 3, .load 3, .mod] ∧
      assemble [.constInt (-7), .store 3, .load 3, .mod] =
        [0, 0xf9, 0xff, 0xff, 0xff, 1, 3, 2, 3, 7] ∧
      Instr.decode (assemble [.constInt (-7), .store 3, .load 3, .mod]) 7 = .ok (.load 3, 2) ∧
      ∃! reading, assemble reading = [0, 0xf9, 0xff, 0xff, 0xff, 1, 3, 2, 3, 7] := by
  obtain ⟨hread, hassemble, -, hunique⟩ := instructions_assemble_inverse
  have hinstrs : instructions [0, 0xf9, 0xff, 0xff, 0xff, 1, 3, 2, 3, 7] =
      .ok [.constInt (-7), .store 3, .load 3, .mod] := by
    cbv
  exact ⟨hinstrs, hassemble _ _ hinstrs, (hread _).2 2 (.load 3) rfl, hunique _ _ hinstrs⟩

end StackScript
