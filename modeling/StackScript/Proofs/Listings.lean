import StackScript.Proofs.BytecodeFormat

/-! # Listings and bulk decoding

One loop writes a line for each instruction and keeps its place, another one collects the
instructions. Both stop where an instruction cannot be read, and so they agree on what a buffer
holds and on what is wrong with it. -/

namespace StackScript

/-! ## Lines of text -/

namespace Text

/-- No line ends in the text. -/
def IsOneLine (text : String) : Prop := '\n' ∉ text.toList

/-- A text consists of lines, each of which ends in its only line break. -/
def IsWrittenIn (text : String) (lines : List String) : Prop :=
  text = String.join lines ∧ ∀ line ∈ lines, ∃ inner, line = inner ++ "\n" ∧ IsOneLine inner

theorem IsOneLine.append {a b : String} (ha : IsOneLine a) (hb : IsOneLine b) :
    IsOneLine (a ++ b) := by
  rw [IsOneLine, String.toList_append, List.mem_append]
  exact fun h => h.elim ha hb

theorem exists_of_mem_toDigits {base n : Nat} {c : Char} (hbase : 1 < base)
    (h : c ∈ Nat.toDigits base n) : ∃ d, d < base ∧ c = Nat.digitChar d := by
  induction n using Nat.strongRecOn with
  | ind n ih =>
      by_cases hn : n < base
      · rw [Nat.toDigits_of_lt_base hn, List.mem_singleton] at h
        exact ⟨n, hn, h⟩
      · have hle := Nat.le_of_not_lt hn
        rw [Nat.toDigits_of_base_le hbase hle, List.mem_append, List.mem_singleton] at h
        rcases h with hfront | hlast
        · exact ih (n / base) (Nat.div_lt_self (by omega) hbase) hfront
        · exact ⟨n % base, Nat.mod_lt n (by omega), hlast⟩

theorem isOneLine_repr (n : Nat) : IsOneLine n.repr := by
  intro h
  rw [Nat.toList_repr] at h
  obtain ⟨d, hd, hc⟩ := exists_of_mem_toDigits (by decide) h
  have hdigits : ∀ d < 10, '\n' ≠ Nat.digitChar d := by decide
  exact hdigits d hd hc

theorem isOneLine_toString (n : Int) : IsOneLine (toString n) := by
  rw [Int.toString_eq_repr]
  cases n with
  | ofNat n => exact isOneLine_repr n
  | negSucc n =>
      have hsign : IsOneLine "-" := by simp [IsOneLine]
      exact hsign.append (isOneLine_repr (n + 1))

theorem isOneLine_hexadecimal (width n : Nat) : IsOneLine (hexadecimal width n) := by
  intro h
  simp only [hexadecimal, String.toList_ofList, List.mem_append, List.mem_replicate,
    List.mem_map] at h
  rcases h with ⟨_, hzero⟩ | ⟨c, hc, hupper⟩
  · exact absurd hzero (by decide)
  · obtain ⟨d, hd, rfl⟩ := exists_of_mem_toDigits (by decide) hc
    have hdigits : ∀ d < 16, (Nat.digitChar d).toUpper ≠ '\n' := by decide
    exact hdigits d hd hupper

end Text

theorem Opcode.isOneLine_mnemonic (op : Opcode) : Text.IsOneLine op.mnemonic := by
  cases op <;> simp [Text.IsOneLine, mnemonic]

theorem Instr.isOneLine_display (i : Instr) : Text.IsOneLine i.display := by
  have hblank : Text.IsOneLine " " := by simp [Text.IsOneLine]
  cases i with
  | constInt value =>
      exact ((Opcode.isOneLine_mnemonic _).append hblank).append (Text.isOneLine_toString _)
  | store slot | load slot =>
      exact ((Opcode.isOneLine_mnemonic _).append hblank).append (Text.isOneLine_repr _)
  | add | sub | mul | div | mod | intToFloat | floatToInt => exact Opcode.isOneLine_mnemonic _

theorem DecodeError.isOneLine_message (e : DecodeError) : Text.IsOneLine e.message := by
  have hat : Text.IsOneLine " at " := by simp [Text.IsOneLine]
  cases e with
  | unknownOpcode offset byte =>
      have hmark : Text.IsOneLine "0x" := by simp [Text.IsOneLine]
      have hfront : Text.IsOneLine "unknown opcode " := by simp [Text.IsOneLine]
      exact ((hfront.append (hmark.append (Text.isOneLine_hexadecimal _ _))).append hat).append
        (Text.isOneLine_hexadecimal _ _)
  | truncated offset opcode =>
      have hfront : Text.IsOneLine "truncated " := by simp [Text.IsOneLine]
      have hword : Text.IsOneLine (truncatedMnemonic opcode) := by
        cases opcode with
        | none => simp [Text.IsOneLine, truncatedMnemonic]
        | some op => exact op.isOneLine_mnemonic
      exact ((hfront.append hword).append hat).append (Text.isOneLine_hexadecimal _ _)

/-! ## Readings -/

/-- Where an instruction could not be read. -/
def DecodeError.offset : DecodeError → Nat
  | unknownOpcode offset _ | truncated offset _ => offset

theorem Instr.offset_of_decode {buffer : Bytes} {offset : Nat} {e : DecodeError}
    (h : decode buffer offset = .error e) : e.offset = offset := by
  unfold decode at h
  split at h
  · cases h
    rfl
  · split at h
    · cases h
      rfl
    · split at h
      · cases h
        rfl
      · cases h

/-- The first of the instructions that are assembled at an offset is decoded there. -/
theorem Instr.decode_of_assemble {buffer : Bytes} {offset : Nat} {i : Instr} {instrs : List Instr}
    (h : assemble (i :: instrs) <+: buffer.drop offset) :
    decode buffer offset = .ok (i, i.size) := by
  obtain ⟨rest, hrest⟩ := h
  rw [assemble_cons, List.append_assoc] at hrest
  have hlength : (buffer.take offset).length = offset := by
    have hdrop := congrArg List.length hrest
    rw [List.length_append, length_encode, List.length_drop] at hdrop
    have hpos := i.size_pos
    exact List.length_take_of_le (by omega)
  have hdecode := decode_append (buffer.take offset) (assemble instrs ++ rest) i
  rwa [hrest, List.take_append_drop, hlength] at hdecode

/-- Reading a buffer from an offset goes through some instructions. It stops at the end, or where an
instruction cannot be read. -/
inductive Reading (buffer : Bytes) : Nat → List Instr → Nat → Option DecodeError → Prop where
  | finished {offset : Nat} : buffer.length ≤ offset → Reading buffer offset [] offset none
  | failed {offset : Nat} {e : DecodeError} : offset < buffer.length →
      Instr.decode buffer offset = .error e → Reading buffer offset [] offset (some e)
  | read {offset stop : Nat} {i : Instr} {instrs : List Instr} {e : Option DecodeError} :
      Instr.decode buffer offset = .ok (i, i.size) →
      Reading buffer (offset + i.size) instrs stop e → Reading buffer offset (i :: instrs) stop e

theorem exists_reading (buffer : Bytes) (offset : Nat) :
    ∃ instrs stop e, Reading buffer offset instrs stop e := by
  fun_induction instructionsFrom buffer offset with
  | case1 offset hlt e he => exact ⟨[], offset, some e, .failed hlt he⟩
  | case2 offset _ i size hi _ ih =>
      obtain rfl := Instr.size_of_decode hi
      obtain ⟨instrs, stop, e, hrest⟩ := ih
      exact ⟨i :: instrs, stop, e, .read hi hrest⟩
  | case3 offset hend => exact ⟨[], offset, none, .finished (Nat.le_of_not_lt hend)⟩

namespace Reading

variable {buffer : Bytes} {offset stop : Nat} {instrs : List Instr} {e : Option DecodeError}

theorem stop_eq (h : Reading buffer offset instrs stop e) : stop = offset + codeSize instrs := by
  induction h with
  | finished | failed => rfl
  | read _ _ ih => rw [ih, codeSize, Nat.add_assoc]

theorem drop_eq (h : Reading buffer offset instrs stop e) :
    buffer.drop offset = assemble instrs ++ buffer.drop stop := by
  induction h with
  | finished | failed => rfl
  | read hi _ ih =>
      rw [Instr.drop_of_decode hi, ih, assemble_cons, List.append_assoc]

theorem length_le (h : Reading buffer offset instrs stop none) : buffer.length ≤ stop := by
  generalize he : (none : Option DecodeError) = e at h
  induction h with
  | finished hend => exact hend
  | failed => cases he
  | read _ _ ih => exact ih he

theorem decode_eq {e : DecodeError} (h : Reading buffer offset instrs stop (some e)) :
    Instr.decode buffer stop = .error e := by
  generalize hsome : some e = e' at h
  induction h with
  | finished => cases hsome
  | failed _ he =>
      cases hsome
      exact he
  | read _ _ ih => exact ih hsome

/-- What is assembled at the offset is read. -/
theorem codeSize_le (h : Reading buffer offset instrs stop e) {others : List Instr}
    (hstarts : assemble others <+: buffer.drop offset) : codeSize others ≤ codeSize instrs := by
  induction h generalizing others with
  | @finished offset hend =>
      rw [List.drop_of_length_le hend, List.prefix_nil] at hstarts
      rw [← length_assemble, hstarts]
      exact Nat.zero_le _
  | @failed offset e hlt he =>
      cases others with
      | nil => exact Nat.le_refl _
      | cons j others =>
          rw [Instr.decode_of_assemble hstarts] at he
          cases he
  | @read offset stop i instrs e hi _ ih =>
      cases others with
      | nil => exact Nat.zero_le _
      | cons j others =>
          -- Both begin with the one instruction that is decoded here.
          rw [Instr.decode_of_assemble hstarts] at hi
          cases hi
          rw [codeSize, codeSize]
          apply Nat.add_le_add_left
          apply ih
          rw [← List.drop_drop]
          obtain ⟨rest, hrest⟩ := hstarts
          rw [← hrest, assemble_cons, List.append_assoc, List.drop_left' (Instr.length_encode _)]
          exact List.prefix_append _ _

end Reading

/-- The instructions of the longest prefix of a buffer that can be decoded to its end, and the
length of this prefix. -/
structure IsLongestReading (buffer : Bytes) (stop : Nat) (instrs : List Instr) : Prop where
  stop_le : stop ≤ buffer.length
  instructions_eq : instructions (buffer.take stop) = .ok instrs
  longest : ∀ length others, length ≤ buffer.length →
    instructions (buffer.take length) = .ok others → length ≤ stop

theorem Reading.isLongestReading {buffer : Bytes} {instrs : List Instr} {stop : Nat}
    {e : Option DecodeError} (h : Reading buffer 0 instrs stop e) :
    IsLongestReading buffer stop instrs := by
  have hstop : stop = (assemble instrs).length := by
    rw [h.stop_eq, length_assemble, Nat.zero_add]
  have hbuffer : buffer = assemble instrs ++ buffer.drop stop := h.drop_eq
  constructor
  · rw [hbuffer, hstop, List.length_append]
    omega
  · have htake : buffer.take stop = assemble instrs := by
      rw [hbuffer, hstop, List.take_left]
    rw [htake, instructions_assemble]
  · intro length others hle hothers
    have hassemble := instructions_eq_ok_iff.mp hothers
    have hlength : codeSize others = length := by
      rw [← length_assemble, hassemble, List.length_take_of_le hle]
    have hstarts : assemble others <+: buffer.drop 0 := hassemble ▸ List.take_prefix length buffer
    have hsize := h.codeSize_le hstarts
    have hsum := h.stop_eq
    omega

/-! ## Both loops -/

theorem Reading.instructionsFrom_eq {buffer : Bytes} {offset stop : Nat} {instrs : List Instr}
    {e : Option DecodeError} (h : Reading buffer offset instrs stop e) :
    instructionsFrom buffer offset = e.elim (.ok instrs) .error := by
  induction h with
  | finished hend =>
      rw [instructionsFrom, if_neg (Nat.not_lt.mpr hend)]
      rfl
  | failed hlt he => exact instructionsFrom_of_decode_error hlt he
  | @read offset stop i instrs e hi _ ih =>
      rw [instructionsFrom_of_decode_ok hi, ih]
      cases e <;> rfl

namespace Disassembler

variable {d : Disassembler}

theorem lines_of_decode_error {e : DecodeError} (hlt : d.cursor < d.buffer.length)
    (h : Instr.decode d.buffer d.cursor = .error e) : d.lines = ([errorLine d.cursor e], d) := by
  have hnext : d.next = (.error e, d) := by simp only [next, h]
  rw [lines, if_pos hlt]
  split
  · rename_i hok
    rw [hnext] at hok
    cases hok
  · rename_i herror
    rw [hnext] at herror
    cases herror
    rfl

theorem lines_of_decode_ok {i : Instr} {size : Nat}
    (h : Instr.decode d.buffer d.cursor = .ok (i, size)) :
    d.lines = (instrLine d.cursor i :: (lines ⟨d.buffer, d.cursor + size⟩).1,
      (lines ⟨d.buffer, d.cursor + size⟩).2) := by
  have hnext : d.next = (.ok (d.cursor, i), ⟨d.buffer, d.cursor + size⟩) := by simp only [next, h]
  rw [lines, if_pos (Instr.decode_bounds h).2]
  split
  · rename_i hok
    rw [hnext] at hok
    cases hok
    rfl
  · rename_i herror
    rw [hnext] at herror
    cases herror

/-- The lines of some instructions. Each has the offset behind the bytes of those before it, a colon
and the instruction. -/
def instrLines (offset : Nat) (instrs : List Instr) : List String :=
  instrs.mapIdx fun index i =>
    Text.offsetNumeral (offset + codeSize (instrs.take index)) ++ ": " ++ i.display ++ "\n"

theorem instrLines_cons (offset : Nat) (i : Instr) (instrs : List Instr) :
    instrLines offset (i :: instrs) =
      instrLine offset i :: instrLines (offset + i.size) instrs := by
  simp only [instrLines, instrLine, List.mapIdx_cons, List.take_zero, codeSize, Nat.add_zero,
    List.take_succ_cons, Nat.add_assoc]

end Disassembler

open Disassembler in
theorem Reading.lines_eq {buffer : Bytes} {offset stop : Nat} {instrs : List Instr}
    {e : Option DecodeError} (h : Reading buffer offset instrs stop e) :
    lines ⟨buffer, offset⟩ =
      (instrLines offset instrs ++ (e.map (errorLine stop)).toList, ⟨buffer, stop⟩) := by
  induction h with
  | finished hend =>
      rw [lines, if_neg (Nat.not_lt.mpr hend)]
      rfl
  | failed hlt he => exact lines_of_decode_error hlt he
  | @read offset stop i instrs e hi _ ih =>
      rw [lines_of_decode_ok hi, ih, instrLines_cons]
      rfl

/-! ## Calls -/

namespace Disassembler

variable {d : Disassembler}

/-- What moves the cursor. -/
inductive Call where
  | listing
  | next
  deriving DecidableEq, Repr

def perform (d : Disassembler) : Call → Disassembler
  | .listing => d.listing.2
  | .next => d.next.2

def performAll (d : Disassembler) (calls : List Call) : Disassembler := calls.foldl perform d

/-- Where the cursor stands does not matter to a listing. -/
theorem listing_eq {buffer : Bytes} {stop : Nat} {instrs : List Instr} {e : Option DecodeError}
    (hbuffer : d.buffer = buffer) (h : Reading buffer 0 instrs stop e) :
    d.listing =
      (String.join (instrLines 0 instrs ++ (e.map (errorLine stop)).toList), ⟨buffer, stop⟩) := by
  simp only [listing, hbuffer, h.lines_eq]

theorem buffer_perform (d : Disassembler) (call : Call) : (d.perform call).buffer = d.buffer := by
  cases call with
  | listing =>
      obtain ⟨instrs, stop, e, h⟩ := exists_reading d.buffer 0
      rw [perform, listing_eq rfl h]
  | next =>
      rw [perform, next]
      split <;> rfl

theorem buffer_performAll (d : Disassembler) (calls : List Call) :
    (d.performAll calls).buffer = d.buffer := by
  induction calls generalizing d with
  | nil => rfl
  | cons call calls ih => exact (ih (d.perform call)).trans (d.buffer_perform call)

/-- A disassembler that stopped at an error stays there. -/
theorem performAll_of_failed {buffer : Bytes} {stop : Nat} {instrs : List Instr} {e : DecodeError}
    (h : Reading buffer 0 instrs stop (some e)) (calls : List Call) :
    performAll ⟨buffer, stop⟩ calls = ⟨buffer, stop⟩ := by
  induction calls with
  | nil => rfl
  | cons call calls ih =>
      have hcall : perform ⟨buffer, stop⟩ call = ⟨buffer, stop⟩ := by
        cases call with
        | listing => rw [perform, listing_eq rfl h]
        | next => simp only [perform, next, h.decode_eq]
      rw [performAll, List.foldl_cons, hcall]
      exact ih

/-! ## Agreement -/

theorem exists_instrLine (offset : Nat) (i : Instr) :
    ∃ inner, instrLine offset i = inner ++ "\n" ∧ Text.IsOneLine inner := by
  have hcolon : Text.IsOneLine ": " := by simp [Text.IsOneLine]
  refine ⟨_, rfl, ?_⟩
  exact ((Text.isOneLine_hexadecimal _ _).append hcolon).append i.isOneLine_display

theorem exists_errorLine (offset : Nat) (e : DecodeError) :
    ∃ inner, errorLine offset e = inner ++ "\n" ∧ Text.IsOneLine inner := by
  have hmark : Text.IsOneLine ": error: " := by simp [Text.IsOneLine]
  refine ⟨_, rfl, ?_⟩
  exact ((Text.isOneLine_hexadecimal _ _).append hmark).append e.isOneLine_message

theorem isWrittenIn_join (offset stop : Nat) (instrs : List Instr) (e : Option DecodeError) :
    Text.IsWrittenIn (String.join (instrLines offset instrs ++ (e.map (errorLine stop)).toList))
      (instrLines offset instrs ++ (e.map (errorLine stop)).toList) := by
  refine ⟨rfl, ?_⟩
  intro line hline
  rcases List.mem_append.mp hline with hinstr | herror
  · obtain ⟨index, _, rfl⟩ := List.mem_mapIdx.mp hinstr
    exact exists_instrLine _ _
  · rw [Option.mem_toList, Option.map_eq_some_iff] at herror
    obtain ⟨e, _, rfl⟩ := herror
    exact exists_errorLine _ _

/-- Whatever was called before, a listing has a line for each instruction of the longest prefix that
can be decoded, with the offset where the instruction starts. Either bulk decoding gives these
instructions and the cursor ends behind the last byte, or it fails. Then one line more tells the
same error at the same offset. The cursor stays there, and reading on gives this error again. -/
theorem listing_agrees (d : Disassembler) (calls : List Call) :
    ∃ instrs stop text, IsLongestReading d.buffer stop instrs ∧
      (d.performAll calls).listing = (text, ⟨d.buffer, stop⟩) ∧
      (instructions d.buffer = .ok instrs ∧ stop = d.buffer.length ∧
          Text.IsWrittenIn text (instrLines 0 instrs) ∨
        ∃ e, instructions d.buffer = .error e ∧ stop = e.offset ∧
          Text.IsWrittenIn text (instrLines 0 instrs ++
            [Text.offsetNumeral e.offset ++ ": error: " ++ e.message ++ "\n"]) ∧
          ∀ more, (performAll ⟨d.buffer, stop⟩ more).next = (.error e, ⟨d.buffer, stop⟩)) := by
  obtain ⟨instrs, stop, e, h⟩ := exists_reading d.buffer 0
  -- The calls may have moved the cursor, but the buffer is still the same.
  have hlisting := listing_eq (d.buffer_performAll calls) h
  have hlines := isWrittenIn_join 0 stop instrs e
  refine ⟨instrs, stop, _, h.isLongestReading, hlisting, ?_⟩
  cases e with
  | none =>
      refine Or.inl ⟨h.instructionsFrom_eq, ?_, ?_⟩
      · exact Nat.le_antisymm h.isLongestReading.stop_le h.length_le
      · rwa [Option.map_none, Option.toList_none, List.append_nil] at hlines ⊢
  | some e =>
      have hstop : e.offset = stop := Instr.offset_of_decode h.decode_eq
      refine Or.inr ⟨e, h.instructionsFrom_eq, hstop.symm, ?_, ?_⟩
      · rw [hstop]
        exact hlines
      · intro more
        simp only [performAll_of_failed h more, next, h.decode_eq]

example :
    (listing { buffer := [3, 0x80, 4] }).1 =
      "0000: ADD\n0001: error: unknown opcode 0x80 at 0001\n" := by decide +kernel

end Disassembler

end StackScript
