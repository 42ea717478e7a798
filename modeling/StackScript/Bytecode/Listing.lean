import StackScript.Bytecode.Instr

/-! # Listings

Bytecode is read back from its start, one instruction after the other. `instructions` gives all
of them or the first error; a `Disassembler` keeps its place between calls and can write the
listing of a buffer. -/

namespace StackScript

/-- An instruction that was decoded takes at least one byte, inside the buffer. -/
theorem Instr.decode_bounds {buffer : Bytes} {offset size : Nat} {instr : Instr}
    (h : Instr.decode buffer offset = .ok (instr, size)) :
    0 < size ∧ offset < buffer.length := by
  unfold Instr.decode at h
  split at h
  · cases h
  · rename_i byte hbyte
    have hlt : offset < buffer.length := (List.getElem?_eq_some_iff.mp hbyte).1
    split at h
    · cases h
    · split at h
      · cases h
      · cases h
        exact ⟨by omega, hlt⟩

/-- The instructions from `offset` to the end of the buffer. -/
def instructionsFrom (buffer : Bytes) (offset : Nat) : Except DecodeError (List Instr) :=
  if offset < buffer.length then
    match h : Instr.decode buffer offset with
    | .error e => .error e
    | .ok (instr, size) =>
        have := Instr.decode_bounds h
        (instructionsFrom buffer (offset + size)).map (instr :: ·)
  else
    .ok []
termination_by buffer.length - offset

/-- Every instruction of the buffer. -/
def instructions (buffer : Bytes) : Except DecodeError (List Instr) := instructionsFrom buffer 0

/-- A buffer and the offset of the next instruction to be read from it. -/
structure Disassembler where
  buffer : Bytes
  cursor : Nat := 0
  deriving DecidableEq, Repr

namespace Disassembler

/-- Read the instruction at the cursor. The cursor moves past it, and stays if there is none. -/
def next (d : Disassembler) : Except DecodeError (Nat × Instr) × Disassembler :=
  match Instr.decode d.buffer d.cursor with
  | .error e => (.error e, d)
  | .ok (instr, size) => (.ok (d.cursor, instr), { d with cursor := d.cursor + size })

/-- The line of an instruction. -/
def instrLine (offset : Nat) (instr : Instr) : String :=
  Text.offsetNumeral offset ++ ": " ++ instr.display ++ "\n"

/-- The line that ends a listing where no instruction can be read. -/
def errorLine (offset : Nat) (error : DecodeError) : String :=
  Text.offsetNumeral offset ++ ": error: " ++ error.message ++ "\n"

theorem next_bounds {d d' : Disassembler} {offset : Nat} {instr : Instr}
    (h : d.next = (.ok (offset, instr), d')) :
    d'.buffer = d.buffer ∧ d.cursor < d'.cursor ∧ d.cursor < d.buffer.length := by
  unfold next at h
  split at h
  · cases h
  · rename_i hd
    have hb := Instr.decode_bounds hd
    cases h
    exact ⟨rfl, by simp only; omega, hb.2⟩

/-- Lines from the cursor on, up to the end of the buffer or the first error. -/
def lines (d : Disassembler) : List String × Disassembler :=
  if d.cursor < d.buffer.length then
    match h : d.next with
    | (.ok (offset, instr), d') =>
        have := next_bounds h
        let (rest, last) := lines d'
        (instrLine offset instr :: rest, last)
    | (.error e, d') => ([errorLine d'.cursor e], d')
  else
    ([], d)
termination_by d.buffer.length - d.cursor
decreasing_by
  rw [this.1]
  omega

/-- The listing of the whole buffer. It starts over at offset zero and leaves the cursor where it
stopped. -/
def listing (d : Disassembler) : String × Disassembler :=
  let (ls, last) := lines { d with cursor := 0 }
  (String.join ls, last)

end Disassembler

/-- The listing of a buffer. -/
def listing (buffer : Bytes) : String := (Disassembler.listing { buffer }).1

end StackScript
