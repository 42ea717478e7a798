import StackScript.Proofs.InstructionRefinement
import StackScript.Scalar

/-! # Scalars in buffers

A value is put behind the end of a buffer in as many bytes as its type takes, and it is read back
from where it was put, bit for bit. The end of what is read may lie far behind the end of the
buffer, even where it is no machine word any more. -/

namespace StackScript

/-! ## Ends of ranges in machine words -/

/-- The sum of two words, if it is a word. -/
def Word.add? (a b : UInt64) : Option UInt64 := if a + b < a then none else some (a + b)

/-- The bytes from one offset up to another, provided that the buffer holds all of them. -/
def Bytes.range? (buffer : Bytes) (start stop : UInt64) : Option Bytes :=
  if start ≤ stop ∧ stop.toNat ≤ buffer.length then
    some ((buffer.take stop.toNat).drop start.toNat)
  else none

theorem Word.add?_of_lt {a b : UInt64} (h : a.toNat + b.toNat < UInt64.size) :
    add? a b = some (a + b) ∧ (a + b).toNat = a.toNat + b.toNat := by
  have hsum : (a + b).toNat = a.toNat + b.toNat := by
    rw [UInt64.toNat_add, Nat.mod_eq_of_lt h]
  have hge : ¬ a + b < a := by
    rw [UInt64.lt_iff_toNat_lt, hsum]
    omega
  rw [add?, if_neg hge]
  exact ⟨rfl, hsum⟩

/-- A sum that is no word wraps around to less than its parts. -/
theorem Word.add?_of_le {a b : UInt64} (h : UInt64.size ≤ a.toNat + b.toNat) :
    add? a b = none := by
  have ha := a.toNat_lt
  have hb := b.toNat_lt
  have hlt : a + b < a := by
    rw [UInt64.lt_iff_toNat_lt, UInt64.toNat_add]
    simp only [UInt64.size] at h
    omega
  rw [add?, if_pos hlt]

theorem Bytes.range?_eq_slice? (buffer : Bytes) {start stop : UInt64} {width : Nat}
    (h : stop.toNat = start.toNat + width) :
    buffer.range? start stop = buffer.slice? start.toNat width := by
  have hle : start ≤ stop := by
    rw [UInt64.le_iff_toNat_le, h]
    omega
  rw [range?, slice?, h]
  by_cases hinside : start.toNat + width ≤ buffer.length
  · rw [if_pos ⟨hle, hinside⟩, if_pos hinside, List.drop_take, Nat.add_sub_cancel_left]
  · rw [if_neg (fun hrange => hinside hrange.2), if_neg hinside]

namespace Scalar

/-! ## One value -/

@[simp] theorem length_toBytes (s : Scalar) (value : s.Bits) : (s.toBytes value).length = s.size :=
  LittleEndian.length_encode s.size value.toNat

/-- Types of one size have the same bytes for the same bits. -/
theorem toNat_ofBytes_toBytes {s t : Scalar} (h : s.size = t.size) (value : s.Bits) :
    (t.ofBytes (s.toBytes value)).toNat = value.toNat := by
  have hlt : value.toNat < Nat.pow 256 s.size := by cases s <;> exact value.isLt
  have hmod : value.toNat % Nat.pow 2 (8 * s.size) = value.toNat := Nat.mod_eq_of_lt value.isLt
  rw [ofBytes, toBytes, LittleEndian.decode_encode, Nat.mod_eq_of_lt hlt, BitVec.toNat_ofNat, ← h]
  exact hmod

theorem ofBytes_toBytes (s : Scalar) (value : s.Bits) : s.ofBytes (s.toBytes value) = value :=
  BitVec.eq_of_toNat_eq (toNat_ofBytes_toBytes rfl value)

theorem toBytes_ofBytes {s : Scalar} {bytes : Bytes} (h : bytes.length = s.size) :
    s.toBytes (s.ofBytes bytes) = bytes := by
  have hlt : LittleEndian.decode bytes < Nat.pow 2 (8 * s.size) := by
    have hdecode := LittleEndian.decode_lt bytes
    rw [h] at hdecode
    cases s <;> exact hdecode
  have hmod : LittleEndian.decode bytes % Nat.pow 2 (8 * s.size) = LittleEndian.decode bytes :=
    Nat.mod_eq_of_lt hlt
  rw [toBytes, ofBytes, BitVec.toNat_ofNat]
  exact (congrArg _ hmod).trans (h ▸ LittleEndian.encode_decode bytes)

theorem read?_append (s : Scalar) (before rest : Bytes) (value : s.Bits) :
    s.read? (before ++ (s.toBytes value ++ rest)) before.length = some value := by
  have hslice := Bytes.slice?_append before (s.toBytes value) rest
  rw [length_toBytes] at hslice
  rw [read?, hslice, Option.map_some, ofBytes_toBytes]

theorem read?_eq_none_iff (s : Scalar) (buffer : Bytes) (offset : Nat) :
    s.read? buffer offset = none ↔ buffer.length < offset + s.size := by
  by_cases h : offset + s.size ≤ buffer.length
  · rw [read?, Bytes.slice?, if_pos h]
    simp only [Option.map_some, reduceCtorEq, false_iff]
    omega
  · rw [read?, Bytes.slice?, if_neg h]
    simp only [Option.map_none, true_iff]
    omega

/-- Read a value, with the end of its bytes computed as a machine word. -/
def readAt? (s : Scalar) (buffer : Bytes) (offset : UInt64) : Option s.Bits :=
  (Word.add? offset (UInt64.ofNat s.size)).bind fun stop =>
    (buffer.range? offset stop).map s.ofBytes

/-- Words are wide enough for all the offsets into a buffer whose length is a word. -/
theorem readAt?_eq_read? (s : Scalar) {buffer : Bytes} (hlength : buffer.length < UInt64.size)
    (offset : UInt64) : s.readAt? buffer offset = s.read? buffer offset.toNat := by
  have hsize : (UInt64.ofNat s.size).toNat = s.size := by cases s <;> rfl
  by_cases hword : offset.toNat + s.size < UInt64.size
  · rw [← hsize] at hword
    obtain ⟨hadd, hstop⟩ := Word.add?_of_lt hword
    rw [hsize] at hstop
    rw [readAt?, hadd, Option.bind_some, Bytes.range?_eq_slice? buffer hstop, read?]
  · have hadd : Word.add? offset (UInt64.ofNat s.size) = none := by
      apply Word.add?_of_le
      rw [hsize]
      omega
    have hnone : s.read? buffer offset.toNat = none := by
      rw [read?_eq_none_iff]
      omega
    rw [readAt?, hadd, Option.bind_none, hnone]

/-! ## Many values -/

/-- A value with its type. -/
structure Value where
  scalar : Scalar
  bits : scalar.Bits
  deriving DecidableEq, Repr

/-- The bytes of a value. -/
def Value.bytes (v : Value) : Bytes := v.scalar.toBytes v.bits

/-- Put values behind the end of a buffer, one after the other. -/
def appendAll (buffer : Bytes) (values : List Value) : Bytes :=
  values.foldl (fun buffer v => v.scalar.append buffer v.bits) buffer

theorem appendAll_eq (buffer : Bytes) (values : List Value) :
    appendAll buffer values = buffer ++ values.flatMap Value.bytes := by
  induction values generalizing buffer with
  | nil => simp [appendAll]
  | cons v values ih =>
      have hrest := ih (v.scalar.append buffer v.bits)
      rw [append, List.append_assoc] at hrest
      exact hrest

theorem read?_appendAll {buffer : Bytes} {values : List Value} {index : Nat} {v : Value}
    (h : values[index]? = some v) :
    v.scalar.read? (appendAll buffer values) (appendAll buffer (values.take index)).length =
      some v.bits := by
  obtain ⟨hlt, rfl⟩ := List.getElem?_eq_some_iff.mp h
  have hsplit : appendAll buffer values = appendAll buffer (values.take index) ++
      (values[index].bytes ++ (values.drop (index + 1)).flatMap Value.bytes) := by
    rw [appendAll_eq, appendAll_eq, List.append_assoc, ← List.flatMap_cons, ← List.flatMap_append,
      List.getElem_cons_drop, List.take_append_drop]
  rw [hsplit]
  exact read?_append _ _ _ _

/-- Whatever values are appended to whatever buffer: each is read back from the end that the buffer
had before it, and the bytes that were there first stay. A read fails only where the value would end
behind the end of the buffer, and machine words do not change that: an end that is no word lies
behind every buffer. -/
theorem appendAll_reads_back (buffer : Bytes) (values : List Value) :
    (∀ (index : Nat) (v : Value), values[index]? = some v →
      v.scalar.read? (appendAll buffer values) (appendAll buffer (values.take index)).length =
        some v.bits) ∧
    buffer <+: appendAll buffer values ∧
    (∀ (code : Bytes) (s : Scalar) (offset : Nat),
      s.read? code offset = none ↔ code.length < offset + s.size) ∧
    ∀ (code : Bytes) (s : Scalar) (offset : UInt64), code.length < UInt64.size →
      s.readAt? code offset = s.read? code offset.toNat := by
  refine ⟨fun index v => read?_appendAll, ?_, fun code s => s.read?_eq_none_iff code,
    fun code s offset hlength => s.readAt?_eq_read? hlength offset⟩
  rw [appendAll_eq]
  exact List.prefix_append buffer _

/-- Three values of different sizes behind a byte, none of them aligned. At the last offset of all
the end of a single byte is no word. -/
theorem appendAll_reads_back_unaligned :
    int32.read? [0xaa, 0xeb, 0x32, 0xa4, 0xf8, 0xef, 0xbe, 0, 0, 0, 0, 0, 0, 0, 0x80] 1 =
        some (-123456789) ∧
      uint16.read? [0xaa, 0xeb, 0x32, 0xa4, 0xf8, 0xef, 0xbe, 0, 0, 0, 0, 0, 0, 0, 0x80] 5 =
        some 0xbeef ∧
      binary64.read? [0xaa, 0xeb, 0x32, 0xa4, 0xf8, 0xef, 0xbe, 0, 0, 0, 0, 0, 0, 0, 0x80] 7 =
        some 0x8000000000000000 ∧
      uint8.readAt? [0xaa] 0xffffffffffffffff = none := by
  obtain ⟨hread, -, hnone, hword⟩ := appendAll_reads_back [0xaa]
    [⟨int32, -123456789⟩, ⟨uint16, 0xbeef⟩, ⟨binary64, 0x8000000000000000⟩]
  refine ⟨hread 0 _ rfl, hread 1 _ rfl, hread 2 _ rfl, ?_⟩
  rw [hword [0xaa] uint8 0xffffffffffffffff (by decide), hnone]
  decide

end Scalar

end StackScript
