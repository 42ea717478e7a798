import StackScript.Proofs.Reloading
import StackScript.Proofs.Scalars

/-! # The operand stack as a bounded list of values

Seen from outside, the stack is a list of values of several widths, of which the last one pushed is
the first one popped. That they lie in one buffer without any tags, where the bytes of popped values
stay behind, does not show in any answer. -/

namespace StackScript

open Scalar (Value)

namespace OperandStack

/-! ## Calls and answers -/

/-- What can be asked of a stack. -/
inductive Call where
  | push (v : Value)
  | pop (s : Scalar)
  | peek (s : Scalar)
  | clear
  deriving DecidableEq, Repr

inductive Reply where
  | done
  | value (v : Value)
  | absent
  | fault (fault : Fault)
  deriving DecidableEq, Repr

/-- The answer to a look at the topmost bytes. -/
def Reply.ofTop (s : Scalar) : Option Bytes → Reply
  | none => absent
  | some bytes => value ⟨s, s.ofBytes bytes⟩

/-- Perform a call. The width of a popped value is asserted, and where it is wrong there is no
result. -/
def perform (stack : OperandStack) : Call → Option (Reply × OperandStack)
  | .push v =>
      match stack.push v.bytes with
      | .error fault => some (.fault fault, stack)
      | .ok stack' => some (.done, stack')
  | .pop s =>
      match stack.pop s.size with
      | .error (.fault fault) => some (.fault fault, stack)
      | .error (.widthMismatch _) => none
      | .ok (bytes, stack') => some (.value ⟨s, s.ofBytes bytes⟩, stack')
  | .peek s => some (.ofTop s (stack.peek? s.size), stack)
  | .clear => some (.done, stack.clear)

/-- Perform a call in memory. -/
def performRaw (raw : RawStack) : Call → Option (Reply × RawStack)
  | .push v =>
      match raw.push? v.bytes with
      | none => none
      | some (.error fault) => some (.fault fault, raw)
      | some (.ok raw') => some (.done, raw')
  | .pop s =>
      match raw.pop? s.size with
      | none => none
      | some (.error fault) => some (.fault fault, raw)
      | some (.ok (bytes, raw')) => some (.value ⟨s, s.ofBytes bytes⟩, raw')
  | .peek s => (raw.peek? s.size).map fun top => (.ofTop s top, raw)
  | .clear => some (.done, raw.clear)

/-! ## Values on the stack -/

/-- The values that were pushed and are not yet popped, the topmost first, after one more call. -/
def track (values : List Value) : Call → Reply → List Value
  | .push v, .done => v :: values
  | .pop _, .value _ => values.tail
  | .clear, _ => []
  | _, _ => values

/-- Number of bytes that some values take. -/
def total : List Value → Nat
  | [] => 0
  | v :: values => v.scalar.size + total values

/-- The bytes of some values, from the bottom up. -/
def contents (values : List Value) : Bytes := values.reverse.flatMap Value.bytes

theorem contents_cons (v : Value) (values : List Value) :
    contents (v :: values) = contents values ++ v.bytes := by
  simp [contents]

theorem length_contents (values : List Value) : (contents values).length = total values := by
  induction values with
  | nil => rfl
  | cons v values ih =>
      rw [contents_cons, List.length_append, ih, total, Value.bytes, Scalar.length_toBytes,
        Nat.add_comm]

section

variable {σ : Type} (perform : σ → Call → Option (Reply × σ))

/-- A stack that came out of some calls, with the values that were pushed and are not yet
popped. -/
inductive Reached (start : σ) : List Value → σ → Prop where
  | start : Reached start [] start
  | call {values : List Value} {state state' : σ} {call : Call} {reply : Reply} :
      Reached start values state → perform state call = some (reply, state') →
      Reached start (track values call reply) state'

def replyTo (state : σ) (call : Call) : Option Reply := (perform state call).map Prod.fst

end

/-- The answers of a stack of the given capacity that holds the given values. -/
structure Answers (capacity : Nat) (values : List Value) (ask : Call → Option Reply) : Prop where
  push_done : ∀ v, ask (.push v) = some .done ↔ total values + v.scalar.size ≤ capacity
  push_full : ∀ v, capacity < total values + v.scalar.size →
    ask (.push v) = some (.fault (.stackOverflow v.scalar.size (total values) capacity))
  pop_short : ∀ s, ask (.pop s) = some (.fault (.stackUnderflow s.size (total values))) ↔
    total values < s.size
  pop_top : ∀ s v rest, values = v :: rest → v.scalar.size = s.size →
    ∃ bits, ask (.pop s) = some (.value ⟨s, bits⟩) ∧ bits.toNat = v.bits.toNat
  pop_mismatch : ∀ s, ask (.pop s) = none ↔
    ¬ total values < s.size ∧ ¬ ∃ v rest, values = v :: rest ∧ v.scalar.size = s.size
  peek_short : ∀ s, ask (.peek s) = some .absent ↔ total values < s.size
  peek_top : ∀ (s : Scalar) front bytes, contents values = front ++ bytes →
    bytes.length = s.size → ∃ bits, ask (.peek s) = some (.value ⟨s, bits⟩) ∧ s.toBytes bits = bytes
  clear_done : ask .clear = some .done

/-- A stack is seen as a bounded list of values. A call that faults, or only looks, leaves it as it
was. -/
structure IsLifo {σ : Type} (perform : σ → Call → Option (Reply × σ)) (position : σ → Nat)
    (capacity : Nat) (values : List Value) (state : σ) : Prop where
  position_eq : position state = total values
  total_le : total values ≤ capacity
  answers : Answers capacity values (replyTo perform state)
  unchanged : ∀ call reply state', perform state call = some (reply, state') →
    (∃ fault, reply = .fault fault) ∨ (∃ s, call = .peek s) → state' = state

/-! ## Single calls -/

/-- The stack holds some values. -/
structure Holds (capacity : Nat) (values : List Value) (stack : OperandStack) : Prop where
  capacity_eq : stack.capacity = capacity
  bytes_eq : stack.bytes = contents values
  widths_eq : stack.widths = values.map fun v => v.scalar.size
  total_le : total values ≤ capacity

namespace Holds

variable {capacity : Nat} {values : List Value} {stack : OperandStack}

theorem ofCapacity (capacity : Nat) :
    Holds (OperandStack.ofCapacity capacity).capacity [] (OperandStack.ofCapacity capacity) :=
  ⟨rfl, rfl, rfl, Nat.zero_le _⟩

theorem position_eq (h : Holds capacity values stack) : stack.position = total values := by
  rw [position, h.bytes_eq, length_contents]

theorem clear (h : Holds capacity values stack) : Holds capacity [] stack.clear :=
  ⟨h.capacity_eq, rfl, rfl, Nat.zero_le _⟩

theorem perform_push (h : Holds capacity values stack) (v : Value) :
    (total values + v.scalar.size ≤ capacity ∧
      ∃ stack', stack.perform (.push v) = some (.done, stack') ∧
        Holds capacity (v :: values) stack') ∨
    (capacity < total values + v.scalar.size ∧
      stack.perform (.push v) =
        some (.fault (.stackOverflow v.scalar.size (total values) capacity), stack)) := by
  have hlength : v.bytes.length = v.scalar.size := Scalar.length_toBytes _ _
  rw [OperandStack.perform, OperandStack.push, h.position_eq, h.capacity_eq, hlength]
  by_cases hfull : capacity < total values + v.scalar.size
  · rw [if_pos hfull]
    exact .inr ⟨hfull, rfl⟩
  · have hfits := Nat.le_of_not_lt hfull
    rw [if_neg hfull]
    refine .inl ⟨hfits, _, rfl, rfl, ?_, ?_, ?_⟩
    · rw [h.bytes_eq, contents_cons]
    · rw [h.widths_eq, List.map_cons]
    · rw [total, Nat.add_comm]
      exact hfits

/-- The value on top is popped if as many bytes are asked for as it takes. -/
theorem pop_top {v : Value} {rest : List Value} {width : Nat} (h : Holds capacity (v :: rest) stack)
    (hwidth : v.scalar.size = width) :
    ∃ stack', stack.pop width = .ok (v.bytes, stack') ∧ Holds capacity rest stack' := by
  have hlength : v.bytes.length = width := (Scalar.length_toBytes _ _).trans hwidth
  have hlast : stack.bytes.last? width = some v.bytes := by
    rw [h.bytes_eq, contents_cons, ← hlength, Bytes.last?_append]
  have hhead : stack.widths.head? = some width := by
    rw [h.widths_eq, List.map_cons, List.head?_cons, hwidth]
  simp only [OperandStack.pop, hlast, if_pos hhead]
  refine ⟨_, rfl, h.capacity_eq, ?_, ?_, ?_⟩
  · rw [h.position_eq, total, hwidth, Nat.add_sub_cancel_left, h.bytes_eq, contents_cons]
    exact List.take_left' (length_contents rest)
  · rw [h.widths_eq, List.map_cons, List.tail_cons]
  · have hle := h.total_le
    rw [total] at hle
    omega

theorem head?_widths (h : Holds capacity values stack) {width : Nat} :
    stack.widths.head? = some width ↔ ∃ v rest, values = v :: rest ∧ v.scalar.size = width := by
  rw [h.widths_eq]
  cases values with
  | nil => simp
  | cons v rest => simp

theorem perform_pop (h : Holds capacity values stack) (s : Scalar) :
    (total values < s.size ∧
      stack.perform (.pop s) = some (.fault (.stackUnderflow s.size (total values)), stack)) ∨
    (∃ v rest, values = v :: rest ∧ v.scalar.size = s.size ∧
      ∃ stack', stack.perform (.pop s) = some (.value ⟨s, s.ofBytes v.bytes⟩, stack') ∧
        Holds capacity rest stack') ∨
    (¬ total values < s.size ∧ (¬ ∃ v rest, values = v :: rest ∧ v.scalar.size = s.size) ∧
      stack.perform (.pop s) = none) := by
  have hlength : stack.bytes.length = total values := h.position_eq
  by_cases hshort : total values < s.size
  · have hlast : stack.bytes.last? s.size = none := by
      rw [Bytes.last?, hlength, if_neg (Nat.not_le.mpr hshort)]
    refine .inl ⟨hshort, ?_⟩
    simp only [OperandStack.perform, OperandStack.pop, hlast, h.position_eq]
  · by_cases htop : ∃ v rest, values = v :: rest ∧ v.scalar.size = s.size
    · obtain ⟨v, rest, rfl, hwidth⟩ := htop
      obtain ⟨stack', hpop, h'⟩ := h.pop_top hwidth
      refine .inr (.inl ⟨v, rest, rfl, hwidth, stack', ?_, h'⟩)
      simp only [OperandStack.perform, hpop]
    · -- There are enough bytes, but they are not those of the value on top.
      have hlast : stack.bytes.last? s.size =
          some (stack.bytes.drop (stack.bytes.length - s.size)) := by
        rw [Bytes.last?, hlength, if_pos (Nat.le_of_not_lt hshort)]
      refine .inr (.inr ⟨hshort, htop, ?_⟩)
      simp only [OperandStack.perform, OperandStack.pop, hlast, if_neg (htop ∘ h.head?_widths.mp)]

/-- One call keeps track of the values. -/
theorem perform (h : Holds capacity values stack) {call : Call} {reply : Reply}
    {stack' : OperandStack} (hperform : stack.perform call = some (reply, stack')) :
    Holds capacity (track values call reply) stack' := by
  cases call with
  | push v =>
      rcases h.perform_push v with ⟨-, next, hpush, hnext⟩ | ⟨-, hpush⟩
      · rw [hpush] at hperform
        cases hperform
        exact hnext
      · rw [hpush] at hperform
        cases hperform
        exact h
  | pop s =>
      rcases h.perform_pop s with ⟨-, hpop⟩ | ⟨v, rest, rfl, -, next, hpop, hnext⟩ | ⟨-, -, hpop⟩
      · rw [hpop] at hperform
        cases hperform
        exact h
      · rw [hpop] at hperform
        cases hperform
        exact hnext
      · rw [hpop] at hperform
        cases hperform
  | peek s =>
      cases hperform
      exact h
  | clear =>
      cases hperform
      exact h.clear

theorem answers (h : Holds capacity values stack) :
    Answers capacity values (replyTo OperandStack.perform stack) where
  push_done v := by
    rcases h.perform_push v with ⟨hfits, next, hpush, -⟩ | ⟨hfull, hpush⟩
    · simp [replyTo, hpush, hfits]
    · simp [replyTo, hpush, hfull]
  push_full v hfull := by
    rcases h.perform_push v with ⟨hfits, -⟩ | ⟨-, hpush⟩
    · omega
    · simp [replyTo, hpush]
  pop_short s := by
    rcases h.perform_pop s with ⟨hshort, hpop⟩ | ⟨v, rest, rfl, hsize, next, hpop, -⟩ |
      ⟨hlong, -, hpop⟩
    · simp [replyTo, hpop, hshort]
    · simp [replyTo, hpop, total, hsize]
    · simp [replyTo, hpop, hlong]
  pop_top s v rest hvalues hsize := by
    rcases h.perform_pop s with ⟨hshort, -⟩ | ⟨top, rest', hvalues', hsize', next, hpop, -⟩ |
      ⟨-, hno, -⟩
    · rw [hvalues, total] at hshort
      omega
    · obtain ⟨rfl, rfl⟩ := List.cons.inj (hvalues'.symm.trans hvalues)
      refine ⟨s.ofBytes top.bytes, ?_, Scalar.toNat_ofBytes_toBytes hsize _⟩
      simp [replyTo, hpop]
    · exact absurd ⟨v, rest, hvalues, hsize⟩ hno
  pop_mismatch s := by
    rcases h.perform_pop s with ⟨hshort, hpop⟩ | ⟨v, rest, rfl, hsize, next, hpop, -⟩ |
      ⟨hlong, hno, hpop⟩
    · simp [replyTo, hpop, hshort]
    · simp [replyTo, hpop, hsize]
    · simp only [replyTo, hpop, Option.map_none, true_iff]
      exact ⟨hlong, hno⟩
  peek_short s := by
    have hlength : stack.bytes.length = total values := h.position_eq
    simp only [replyTo, OperandStack.perform, peek?, Bytes.last?, hlength]
    by_cases hshort : total values < s.size
    · simp [hshort, Nat.not_le.mpr hshort, Reply.ofTop]
    · simp [hshort, Nat.le_of_not_lt hshort, Reply.ofTop]
  peek_top s front bytes hcontents hlength := by
    refine ⟨s.ofBytes bytes, ?_, Scalar.toBytes_ofBytes hlength⟩
    have hlast : stack.peek? s.size = some bytes := by
      rw [peek?, h.bytes_eq, hcontents, ← hlength, Bytes.last?_append]
    simp only [replyTo, OperandStack.perform, hlast, Reply.ofTop, Option.map_some]
  clear_done := rfl

end Holds

/-! ## Memory -/

/-- In memory a call has the same answer, and it leaves the same stack. -/
theorem performRaw_cases {raw : RawStack} {stack : OperandStack} (h : raw.Represents stack)
    (call : Call) :
    (performRaw raw call = none ∧ stack.perform call = none) ∨
      ∃ reply raw' stack', performRaw raw call = some (reply, raw') ∧
        stack.perform call = some (reply, stack') ∧ raw'.Represents stack' := by
  cases call with
  | push v =>
      right
      rcases h.push? v.bytes with ⟨fault, hraw, hstack⟩ | ⟨raw', stack', hraw, hstack, h'⟩
      · simp only [performRaw, hraw, perform, hstack]
        exact ⟨_, _, _, rfl, rfl, h⟩
      · simp only [performRaw, hraw, perform, hstack]
        exact ⟨_, _, _, rfl, rfl, h'⟩
  | pop s =>
      rcases h.pop?_cases s.size with
        ⟨fault, hraw, hstack⟩ | ⟨hraw, hstack⟩ | ⟨value, raw', stack', hraw, hstack, h'⟩
      · simp only [performRaw, hraw, perform, hstack]
        exact .inr ⟨_, _, _, rfl, rfl, h⟩
      · left
        simp only [performRaw, hraw, perform, hstack, and_self]
      · simp only [performRaw, hraw, perform, hstack]
        exact .inr ⟨_, _, _, rfl, rfl, h'⟩
  | peek s =>
      simp only [performRaw, h.peek?_eq, perform, Option.map_some]
      exact .inr ⟨_, _, _, rfl, rfl, h⟩
  | clear => exact .inr ⟨_, _, _, rfl, rfl, h.clear⟩

theorem replyTo_performRaw {raw : RawStack} {stack : OperandStack} (h : raw.Represents stack) :
    replyTo performRaw raw = replyTo perform stack := by
  funext call
  rcases performRaw_cases h call with ⟨hraw, hstack⟩ | ⟨_, _, _, hraw, hstack, _⟩
  · rw [replyTo, replyTo, hraw, hstack, Option.map_none, Option.map_none]
  · rw [replyTo, replyTo, hraw, hstack, Option.map_some, Option.map_some]

/-! ## All calls -/

section

variable {call : Call} {reply : Reply}

theorem eq_of_perform {stack stack' : OperandStack}
    (h : stack.perform call = some (reply, stack'))
    (hkeeps : (∃ fault, reply = .fault fault) ∨ ∃ s, call = .peek s) : stack' = stack := by
  rcases hkeeps with ⟨fault, rfl⟩ | ⟨s, rfl⟩
  · cases call with
    | push v =>
        rw [perform] at h
        split at h <;> cases h
        rfl
    | pop s =>
        rw [perform] at h
        split at h <;> cases h
        rfl
    | peek s => exact (congrArg Prod.snd (Option.some.inj h)).symm
    | clear => cases h
  · exact (congrArg Prod.snd (Option.some.inj h)).symm

theorem eq_of_performRaw {raw raw' : RawStack} (h : performRaw raw call = some (reply, raw'))
    (hkeeps : (∃ fault, reply = .fault fault) ∨ ∃ s, call = .peek s) : raw' = raw := by
  rcases hkeeps with ⟨fault, rfl⟩ | ⟨s, rfl⟩
  · cases call with
    | push v =>
        rw [performRaw] at h
        split at h <;> cases h
        rfl
    | pop s =>
        rw [performRaw] at h
        split at h <;> cases h
        rfl
    | peek s =>
        obtain ⟨top, _, htop⟩ := Option.map_eq_some_iff.mp h
        exact (congrArg Prod.snd htop).symm
    | clear => cases h
  · obtain ⟨top, _, htop⟩ := Option.map_eq_some_iff.mp h
    exact (congrArg Prod.snd htop).symm

end

section

variable {capacity : Nat} {values : List Value}

theorem Reached.holds {stack : OperandStack}
    (h : Reached perform (ofCapacity capacity) values stack) :
    Holds (ofCapacity capacity).capacity values stack := by
  induction h with
  | start => exact .ofCapacity capacity
  | call _ hperform ih => exact ih.perform hperform

theorem Reached.represents {raw : RawStack}
    (h : Reached performRaw (RawStack.ofCapacity capacity) values raw) :
    ∃ stack, raw.Represents stack ∧ Holds (ofCapacity capacity).capacity values stack := by
  induction h with
  | start => exact ⟨_, .ofCapacity capacity, .ofCapacity capacity⟩
  | @call values raw raw' call reply _ hraw ih =>
      obtain ⟨stack, hrep, hholds⟩ := ih
      rcases performRaw_cases hrep call with
        ⟨hnone, _⟩ | ⟨reply', next, stack', hnext, hstack, hrep'⟩
      · rw [hnone] at hraw
        cases hraw
      · rw [hnext] at hraw
        cases hraw
        exact ⟨stack', hrep', hholds.perform hstack⟩

end

/-- Whatever is pushed, popped, looked at and cleared, at whatever scalar types: the stack is a list
of the values that were pushed and not popped, bounded by its capacity in bytes. So is the stack in
memory, whatever bytes it finds there. -/
theorem bounded_lifo (capacity : Nat) (values : List Value) :
    (∀ stack, Reached perform (ofCapacity capacity) values stack →
      IsLifo perform position (ofCapacity capacity).capacity values stack) ∧
    ∀ raw, Reached performRaw (RawStack.ofCapacity capacity) values raw →
      IsLifo performRaw RawStack.position (ofCapacity capacity).capacity values raw := by
  constructor
  · intro stack h
    have hholds := h.holds
    exact ⟨hholds.position_eq, hholds.total_le, hholds.answers, fun _ _ _ => eq_of_perform⟩
  · intro raw h
    obtain ⟨stack, hrep, hholds⟩ := h.represents
    refine ⟨?_, hholds.total_le, ?_, fun _ _ _ => eq_of_performRaw⟩
    · rw [hrep.position_eq, hholds.position_eq]
    · rw [replyTo_performRaw hrep]
      exact hholds.answers

/-- Eight bytes are pushed and popped, and then a byte and a cell lie over five of them. The cell is
popped as another type of its width, the byte below it cannot be popped, and there is no room for a
second cell. -/
theorem bounded_lifo_staleBytes :
    ∃ raw : RawStack, raw.buffer = [0xab, 7, 0, 0, 0, 0xff, 0xff, 0xff] ∧
      Reached performRaw (RawStack.ofCapacity 8) [⟨.int32, 7⟩, ⟨.uint8, 0xab⟩] raw ∧
      raw.position = 5 ∧
      (∃ bits, replyTo performRaw raw (.pop .binary32) = some (.value ⟨.binary32, bits⟩) ∧
        bits.toNat = 7) ∧
      replyTo performRaw raw (.pop .uint8) = none ∧
      replyTo performRaw raw (.peek .int64) = some .absent ∧
      replyTo performRaw raw (.push ⟨.uint32, 0⟩) = some (.fault (.stackOverflow 4 5 8)) := by
  have hfull := Reached.start.call (rfl : performRaw (RawStack.ofCapacity 8)
    (.push ⟨.int64, -1⟩) =
      some (.done, ⟨[0xff, 0xff, 0xff, 0xff, 0xff, 0xff, 0xff, 0xff], 8, [8]⟩))
  have hempty := hfull.call (rfl : performRaw _ (.pop .int64) =
    some (.value ⟨.int64, -1⟩, ⟨[0xff, 0xff, 0xff, 0xff, 0xff, 0xff, 0xff, 0xff], 0, []⟩))
  have hbyte := hempty.call (rfl : performRaw _ (.push ⟨.uint8, 0xab⟩) =
    some (.done, ⟨[0xab, 0xff, 0xff, 0xff, 0xff, 0xff, 0xff, 0xff], 1, [1]⟩))
  have hreached : Reached performRaw (RawStack.ofCapacity 8) [⟨.int32, 7⟩, ⟨.uint8, 0xab⟩]
      ⟨[0xab, 7, 0, 0, 0, 0xff, 0xff, 0xff], 5, [4, 1]⟩ :=
    hbyte.call (rfl : performRaw _ (.push ⟨.int32, 7⟩) = some (.done, _))
  have hlifo := (bounded_lifo 8 [⟨.int32, 7⟩, ⟨.uint8, 0xab⟩]).2 _ hreached
  refine ⟨_, rfl, hreached, hlifo.position_eq, hlifo.answers.pop_top .binary32 _ _ rfl rfl, ?_, ?_,
    hlifo.answers.push_full _ (by decide)⟩
  · apply (hlifo.answers.pop_mismatch .uint8).mpr
    refine ⟨by decide, ?_⟩
    rintro ⟨_, _, hvalues, hsize⟩
    cases hvalues
    cases hsize
  · exact (hlifo.answers.peek_short .int64).mpr (by decide)

end OperandStack

end StackScript
