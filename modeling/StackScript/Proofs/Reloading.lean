import StackScript.Proofs.RawMemory
import StackScript.Proofs.Stepping
import StackScript.Scalar

/-! # Loading over an earlier run

Loading a program moves the cursor of the stack and leaves the bytes of the earlier run where they
are. No later call shows any of them: a machine that was loaded cannot be told from a new one of
the same configuration, whatever was done to it before. -/

namespace StackScript

/-! ## Observations -/

/-- What a host can see of a machine between two calls. The top of the stack and the variables are
read at every scalar type. -/
@[ext] structure Observation where
  status : Status
  pc : Nat
  position : Nat
  top : (s : Scalar) → Option s.Bits
  storeSize : Nat
  slot : Nat → (s : Scalar) → Option s.Bits

/-- What a host learns from a call: the value that is returned, and what can be seen behind it. -/
abbrev Event := Except Fault (Option Status) × Observation

namespace Vm

def observation (vm : Vm) : Observation where
  status := vm.status
  pc := vm.pc
  position := vm.stack.position
  top s := (vm.stack.peek? s.size).map s.ofBytes
  storeSize := vm.store.size
  slot index s := (vm.store.read? index s.size).map s.ofBytes

/-- What a host learns from calls, one after the other. -/
def trace (vm : Vm) : List Call → List Event
  | [] => []
  | call :: calls =>
      (vm.reply call, (vm.perform call).observation) :: (vm.perform call).trace calls

end Vm

/-- The topmost bytes in memory, whatever values they belong to. -/
def RawStack.peek? (stack : RawStack) (width : Nat) : Option (Option Bytes) :=
  if stack.position < width then some none
  else (stack.buffer.slice? (stack.position - width) width).map some

/-- The bytes above the cursor are not read. -/
theorem RawStack.Represents.peek?_eq {raw : RawStack} {stack : OperandStack}
    (h : raw.Represents stack) (width : Nat) : raw.peek? width = some (stack.peek? width) := by
  have hposition : stack.bytes.length = raw.position := h.position_eq.symm
  unfold RawStack.peek? OperandStack.peek?
  by_cases hlt : raw.position < width
  · rw [if_pos hlt, Bytes.last?, hposition, if_neg (Nat.not_le.mpr hlt)]
  · have hle := Nat.le_of_not_lt hlt
    rw [if_neg hlt, h.slice?_eq hle, Bytes.last?, hposition, if_pos hle, Option.map_some]

namespace RawVm

/-- What can be seen of a machine in memory. Every read must be within range. -/
structure Shows (raw : RawVm) (o : Observation) : Prop where
  status : raw.status = o.status
  pc : raw.pc = o.pc
  position : raw.stack.position = o.position
  top : ∀ s : Scalar, (raw.stack.peek? s.size).map (Option.map s.ofBytes) = some (o.top s)
  storeSize : raw.store.size = o.storeSize
  slot : ∀ index (s : Scalar), (raw.store.read? index s.size).map s.ofBytes = o.slot index s

/-- What a host learns from calls on a machine in memory. -/
inductive Produces : RawVm → List Vm.Call → List Event → Prop where
  | nil {raw : RawVm} : Produces raw [] []
  | cons {raw raw' : RawVm} {call : Vm.Call} {calls : List Vm.Call} {o : Observation}
      {events : List Event} :
      raw.Performs call raw' → raw'.Shows o → Produces raw' calls events →
      Produces raw (call :: calls) ((call.answer raw'.status, o) :: events)

/-! ## One result for each call -/

theorem Executes.unique {raw first second : RawVm} (h : raw.Executes first)
    (h' : raw.Executes second) : first = second := by
  induction h with
  | last hstep hhalted =>
      cases h' with
      | last hstep' _ => exact Option.some.inj (hstep.symm.trans hstep')
      | next hstep' hrunning _ =>
          obtain rfl := Option.some.inj (hstep.symm.trans hstep')
          rw [hhalted] at hrunning
          cases hrunning
  | next hstep hrunning _ ih =>
      cases h' with
      | last hstep' hhalted =>
          obtain rfl := Option.some.inj (hstep.symm.trans hstep')
          rw [hhalted] at hrunning
          cases hrunning
      | next hstep' _ hrest =>
          obtain rfl := Option.some.inj (hstep.symm.trans hstep')
          exact ih hrest

theorem Performs.unique {raw first second : RawVm} {call : Vm.Call}
    (h : raw.Performs call first) (h' : raw.Performs call second) : first = second := by
  cases call with
  | load code => exact Eq.trans h (Eq.symm h')
  | run code | execute => exact Executes.unique h h'
  | runSteps count => exact Option.some.inj (Eq.trans (Eq.symm h) h')

namespace Represents

variable {raw raw' : RawVm} {vm : Vm}

/-- A call on the machine in memory comes to what it comes to on the machine. -/
theorem of_performs (h : raw.Represents vm) (hsound : vm.Sound) {call : Vm.Call}
    (hperforms : raw.Performs call raw') : raw'.Represents (vm.perform call) := by
  obtain ⟨raw'', hperforms', h'⟩ := h.performs hsound call
  rw [hperforms.unique hperforms']
  exact h'

theorem of_performsAll (h : raw.Represents vm) (hsound : vm.Sound) {calls : List Vm.Call}
    (hperforms : raw.PerformsAll calls raw') : raw'.Represents (vm.performAll calls) := by
  induction calls generalizing raw vm with
  | nil =>
      obtain rfl : raw' = raw := hperforms
      exact h
  | cons call calls ih =>
      obtain ⟨middle, hcall, hcalls⟩ := hperforms
      exact ih (h.of_performs hsound hcall) (hsound.perform call) hcalls

/-! ## What memory shows -/

/-- A machine in memory shows what can be seen of the machine that it represents, and nothing
else. -/
theorem shows_iff (h : raw.Represents vm) {o : Observation} :
    raw.Shows o ↔ o = vm.observation := by
  have htop : ∀ s : Scalar, (raw.stack.peek? s.size).map (Option.map s.ofBytes) =
      some (vm.observation.top s) := by
    intro s
    rw [h.stack.peek?_eq]
    rfl
  constructor
  · intro hshows
    ext1
    · exact hshows.status.symm.trans h.status_eq
    · exact hshows.pc.symm.trans h.pc_eq
    · exact hshows.position.symm.trans h.stack.position_eq
    · funext s
      exact Option.some.inj ((hshows.top s).symm.trans (htop s))
    · rw [← hshows.storeSize, h.store_eq]
      rfl
    · funext index s
      rw [← hshows.slot, h.store_eq]
      rfl
  · rintro rfl
    refine ⟨h.status_eq, h.pc_eq, h.stack.position_eq, htop, ?_, fun index s => ?_⟩
    · rw [h.store_eq]
      rfl
    · rw [h.store_eq]
      rfl

theorem produces_iff (h : raw.Represents vm) (hsound : vm.Sound) {calls : List Vm.Call}
    {events : List Event} : raw.Produces calls events ↔ events = vm.trace calls := by
  induction calls generalizing raw vm events with
  | nil =>
      constructor
      · intro hproduces
        cases hproduces
        rfl
      · rintro rfl
        exact .nil
  | cons call calls ih =>
      constructor
      · intro hproduces
        cases hproduces with
        | cons hcall hshows hrest =>
            have h' := h.of_performs hsound hcall
            rw [h'.shows_iff.mp hshows, (ih h' (hsound.perform call)).mp hrest, h'.status_eq]
            rfl
      · rintro rfl
        obtain ⟨raw', hcall, h'⟩ := h.performs hsound call
        have hrest := (ih h' (hsound.perform call)).mpr rfl
        have hcons := Produces.cons hcall (h'.shows_iff.mpr rfl) hrest
        rw [h'.status_eq] at hcons
        exact hcons

end Represents

end RawVm

/-! ## Configuration -/

namespace Vm

/-- What is fixed when a machine is made: the capacity that was asked for, and the one that its
stack has. -/
def config (vm : Vm) : Option Nat × Nat := (vm.stackSize, vm.stack.capacity)

variable {vm : Vm}

theorem config_pushCell (vm : Vm) (cell : Cell) (next : Nat) :
    (vm.pushCell cell next).config = vm.config := by
  unfold pushCell OperandStack.push
  split
  · rfl
  · rename_i stack hpush
    split at hpush
    · cases hpush
    · cases hpush
      rfl

theorem config_popCell (vm : Vm) {use : Vm → Cell → Vm}
    (h : ∀ vm' cell, (use vm' cell).config = vm'.config) : (vm.popCell use).config = vm.config := by
  unfold popCell
  split
  · rfl
  · rfl
  · rename_i bytes stack hpop
    rw [h]
    unfold OperandStack.pop at hpop
    split at hpop
    · cases hpop
    · split at hpop
      · cases hpop
        rfl
      · cases hpop

theorem config_unary (vm : Vm) (op : Cell → Cell) (next : Nat) :
    (vm.unary op next).config = vm.config :=
  vm.config_popCell fun vm' cell => vm'.config_pushCell (op cell) next

theorem config_binary (vm : Vm) (op : Cell → Cell → Except Fault Cell) (next : Nat) :
    (vm.binary op next).config = vm.config := by
  refine vm.config_popCell fun vm' a => vm'.config_popCell fun vm'' b => ?_
  split
  · rfl
  · exact vm''.config_pushCell _ next

theorem config_exec (vm : Vm) (op : Opcode) : (vm.exec op).config = vm.config := by
  cases op with
  | constInt | load =>
      simp only [exec]
      split
      · rfl
      · exact vm.config_pushCell _ _
  | store =>
      simp only [exec]
      split
      · rfl
      · exact vm.config_popCell fun _ _ => rfl
  | add | sub | mul | div | mod => exact vm.config_binary _ _
  | intToFloat | floatToInt => exact vm.config_unary _ _

theorem config_step (vm : Vm) : vm.step.config = vm.config := by
  unfold step
  split
  · rfl
  · split
    · rfl
    · split
      · rfl
      · exact vm.config_exec _

theorem config_perform (vm : Vm) (call : Call) : (vm.perform call).config = vm.config :=
  perform_keeps (P := fun vm' => vm'.config = vm.config) (fun _ _ h => h)
    (fun vm' h => vm'.config_step.trans h) rfl call

theorem config_performAll (vm : Vm) (calls : List Call) :
    (vm.performAll calls).config = vm.config := by
  induction calls generalizing vm with
  | nil => rfl
  | cons call calls ih => exact (ih (vm.perform call)).trans (vm.config_perform call)

/-- Of an earlier run nothing but the configuration is left. -/
theorem load_eq_of_config {vm' : Vm} (h : vm.config = vm'.config) (code : Bytes) :
    vm.load code = vm'.load code := by
  obtain ⟨hsize, hcapacity⟩ := Prod.mk.inj h
  simp only [load, OperandStack.clear, hsize, hcapacity]

theorem trace_load_eq_of_config {vm' : Vm} (h : vm.config = vm'.config) (code : Bytes)
    (calls : List Call) : vm.trace (.load code :: calls) = vm'.trace (.load code :: calls) := by
  simp only [trace, reply, perform, load_eq_of_config h]

/-! ## Loaded machines -/

/-- Whatever calls were made before, once a program is loaded every call returns and shows what it
does on a new machine of the same configuration. So it is in memory, where the bytes of the earlier
runs are still there. -/
theorem load_erases_history (stackSize : Option Nat) (before : List Call) (code : Bytes)
    (calls : List Call) :
    ((Vm.new stackSize).performAll before).trace (.load code :: calls) =
      (Vm.new stackSize).trace (.load code :: calls) ∧
    (RawVm.new stackSize).Produces (.load code :: calls)
      ((Vm.new stackSize).trace (.load code :: calls)) ∧
    ∀ raw, (RawVm.new stackSize).PerformsAll before raw → ∀ events,
      raw.Produces (.load code :: calls) events ↔
        events = (Vm.new stackSize).trace (.load code :: calls) := by
  have hnew := RawVm.Represents.new stackSize
  have htrace := trace_load_eq_of_config ((Vm.new stackSize).config_performAll before) code calls
  refine ⟨htrace, (hnew.produces_iff (.new stackSize)).mpr rfl, fun raw hraw events => ?_⟩
  have hrep := hnew.of_performsAll (.new stackSize) hraw
  rw [hrep.produces_iff (Reachable.sound ⟨stackSize, before, rfl⟩), htrace]

/-- The earlier run wrote a variable and left two cells on the stack when it faulted. The loaded
program reads the variable and finds no second cell to add. -/
theorem load_erases_history_staleBytes :
    ∃ raw, (RawVm.new (some 12)).PerformsAll
        [.run [0, 7, 0, 0, 0, 1, 0, 0, 9, 0, 0, 0, 0, 8, 0, 0, 0, 255]] raw ∧
      raw.status = .halted (.fault (.unknownOpcode 17 255)) ∧
      (raw.load [2, 0, 3]).stack.buffer = [9, 0, 0, 0, 8, 0, 0, 0, 0, 0, 0, 0] ∧
      ∃ loaded stepped faulted, raw.Produces [.load [2, 0, 3], .runSteps 1, .runSteps 1]
          [(.ok none, loaded), (.ok (some .running), stepped),
            (.error (.stackUnderflow 4 0), faulted)] ∧
        stepped.position = 4 ∧ stepped.top .int32 = some 0 ∧ faulted.slot 0 .int32 = none := by
  have hbefore : ∃ raw, (RawVm.new (some 12)).PerformsAll
      [.run [0, 7, 0, 0, 0, 1, 0, 0, 9, 0, 0, 0, 0, 8, 0, 0, 0, 255]] raw ∧
      raw.status = .halted (.fault (.unknownOpcode 17 255)) ∧
      (raw.load [2, 0, 3]).stack.buffer = [9, 0, 0, 0, 8, 0, 0, 0, 0, 0, 0, 0] :=
    ⟨_, ⟨_, .next rfl rfl (.next rfl rfl (.next rfl rfl (.next rfl rfl (.last rfl rfl)))), rfl⟩,
      rfl, rfl⟩
  obtain ⟨raw, hraw, hfault, hstale⟩ := hbefore
  obtain ⟨-, -, hproduces⟩ := load_erases_history (some 12) _ [2, 0, 3] [.runSteps 1, .runSteps 1]
  exact ⟨raw, hraw, hfault, hstale, _, _, _, (hproduces raw hraw _).mpr rfl, rfl, rfl, rfl⟩

end Vm

end StackScript
