import StackScript.Proofs.StackEffect
import StackScript.Proofs.Stepping
import StackScript.Proofs.TypedCode

/-! # Variables without a value

No code is emitted for a variable that is declared without a value, so it starts with what its slot
holds. In a slot that was never stored to this is zero. A slot that was freed still holds the last
value of the variable that had it before. -/

namespace StackScript

/-! ## Slots that are not stored to -/

namespace Cells

/-- Unless the step faults, the slot holds the given cell behind it. -/
def SlotHolds (slot : UInt8) (held : Option Cell) : Step Cells → Prop
  | .ok s => s.store slot = held
  | .error _ => True

variable {capacity next : Nat} {s : Cells} {slot : UInt8} {held : Option Cell}

theorem slotHolds_push (h : s.store slot = held) (cell : Cell) :
    SlotHolds slot held (s.push capacity next cell) := by
  unfold push
  split
  · trivial
  · exact h

theorem slotHolds_pop (h : s.store slot = held) {rest : Cell × Cells → Step Cells}
    (hrest : ∀ cell (s' : Cells), s'.store slot = held → SlotHolds slot held (rest (cell, s'))) :
    SlotHolds slot held (s.pop >>= rest) := by
  obtain ⟨pc, stack, store⟩ := s
  cases stack with
  | nil => trivial
  | cons cell cells => exact hrest cell ⟨pc, cells, store⟩ h

theorem slotHolds_unary (h : s.store slot = held) (op : Cell → Cell) :
    SlotHolds slot held (s.unary capacity next op) :=
  slotHolds_pop h fun _ _ h' => slotHolds_push h' _

theorem slotHolds_binary (h : s.store slot = held) (op : Cell → Cell → Option Cell) :
    SlotHolds slot held (s.binary capacity next op) := by
  refine slotHolds_pop h fun a _ h' => slotHolds_pop h' fun b _ h'' => ?_
  simp only
  split
  · trivial
  · exact slotHolds_push h'' _

theorem slotHolds_act (h : s.store slot = held) {i : Instr} (hi : i ≠ .store slot) :
    SlotHolds slot held (s.act capacity i) := by
  cases i with
  | constInt value => exact slotHolds_push h value
  | load other => exact slotHolds_push h _
  | store other =>
      refine slotHolds_pop h fun cell s' h' => ?_
      have hne : slot ≠ other := fun heq => hi (by rw [heq])
      exact (if_neg hne).trans h'
  | add | sub | mul | div | mod =>
      simp only [act]
      exact slotHolds_binary h _
  | intToFloat | floatToInt => exact slotHolds_unary h _

theorem slotHolds_run (h : s.store slot = held) {code : List Instr} (hcode : .store slot ∉ code) :
    SlotHolds slot held (s.run capacity code) := by
  induction code generalizing s with
  | nil => exact h
  | cons i code ih =>
      have hact : SlotHolds slot held (s.act capacity i) :=
        slotHolds_act h (List.ne_of_not_mem_cons hcode).symm
      rw [run_cons]
      rcases hresult : s.act capacity i with ⟨fault, s'⟩ | s'
      · trivial
      · rw [hresult] at hact
        exact ih hact (List.not_mem_of_not_mem_cons hcode)

end Cells

/-! ## Steps over assembled code -/

namespace Vm

/-- The cell that a slot is read as. -/
def cellAt (vm : Vm) (slot : UInt8) : Cell :=
  (vm.store.read? slot.toNat Cell.width).elim 0 Cell.ofBytes

/-- The next step executes an instruction of two bytes that pushes the cell. -/
def Pushes (vm : Vm) (cell : Cell) : Prop := vm.step = vm.pushCell cell (vm.pc + 2)

instance (vm : Vm) (cell : Cell) : Decidable (vm.Pushes cell) :=
  inferInstanceAs (Decidable (_ = _))

namespace Holds

variable {vm : Vm} {before : Bytes} {xs ys : List Instr} {capacity : Nat} {s s' : Cells}

theorem runSteps_of_run (h : vm.Holds (before ++ assemble (xs ++ ys)) capacity s)
    (hpc : s.pc = before.length) (hrun : s.run capacity xs = .ok s') :
    (vm.runSteps xs.length).Holds (before ++ assemble xs ++ assemble ys) capacity s' ∧
      s'.pc = (before ++ assemble xs).length := by
  induction xs generalizing vm before s with
  | nil =>
      cases hrun
      simpa [assemble, runSteps] using And.intro h hpc
  | cons i xs ih =>
      rw [Cells.run_cons] at hrun
      obtain ⟨middle, hact, hrest⟩ := bind_eq_ok_iff.mp hrun
      obtain ⟨hnext, hpc'⟩ := h.step_cons_of_act hpc hact
      have hcode : before ++ assemble (i :: xs) = before ++ i.encode ++ assemble xs :=
        (List.append_assoc before i.encode (assemble xs)).symm
      rw [List.length_cons, runSteps_succ, hcode]
      exact ih hnext hpc' hrest

theorem isHalted_of_run (h : vm.Holds (before ++ assemble (xs ++ ys)) capacity s)
    (hpc : s.pc = before.length) {fault : Fault × Cells} (hrun : s.run capacity xs = .error fault) :
    (vm.runSteps xs.length).status.isHalted = true := by
  induction xs generalizing vm before s with
  | nil => cases hrun
  | cons i xs ih =>
      rw [Cells.run_cons] at hrun
      rw [List.length_cons, runSteps_succ]
      have hstep := h.step_cons hpc
      rcases hact : s.act capacity i with ⟨_, _⟩ | middle
      · rw [hact] at hstep
        obtain ⟨vm', -, hhalt⟩ := hstep
        have hhalted : vm.step.status.isHalted = true := by rw [hhalt]; rfl
        rw [runSteps_of_isHalted hhalted]
        exact hhalted
      · obtain ⟨hnext, hpc'⟩ := h.step_cons_of_act hpc hact
        rw [hact] at hrun
        exact ih hnext hpc' hrun

theorem cellAt_eq {code : Bytes} (h : vm.Holds code capacity s) (slot : UInt8) :
    vm.cellAt slot = (s.store slot).getD 0 :=
  h.read?_elim slot

theorem pushes_load {slot : UInt8} (h : vm.Holds (before ++ assemble (.load slot :: ys)) capacity s)
    (hpc : s.pc = before.length) : vm.Pushes (vm.cellAt slot) := by
  have hbyte : vm.code[vm.pc]? = some Opcode.load.toByte := by
    rw [h.code_eq, h.pc_eq, hpc]
    simp [assemble, Instr.encode, Instr.opcode]
  have hslot : vm.code[vm.pc + 1]? = some slot := by
    rw [h.code_eq, h.pc_eq, hpc]
    simp [assemble, Instr.encode, Instr.operandBytes]
  simp only [Pushes, Vm.step, h.running, hbyte, Opcode.ofByte?_toByte, Vm.exec, hslot]
  rfl

/-- Behind code that does not store to its slot, a load pushes what the slot held before this code,
and zero if nothing was stored to the slot before. -/
theorem pushes_of_store_notMem {code between behind : List Instr} {slot : UInt8}
    (h : vm.Holds (assemble (code ++ between ++ .load slot :: behind)) capacity {})
    (hbetween : .store slot ∉ between)
    (hrunning : (vm.runSteps (code ++ between).length).status = .running) :
    (vm.runSteps (code ++ between).length).Pushes ((vm.runSteps code.length).cellAt slot) ∧
      (.store slot ∉ code → (vm.runSteps code.length).cellAt slot = 0) := by
  have hholds : vm.Holds ([] ++ assemble (code ++ between ++ .load slot :: behind)) capacity {} := h
  rcases hrun : Cells.run capacity (code ++ between) {} with fault | s
  · have hhalted := hholds.isHalted_of_run rfl hrun
    rw [hrunning] at hhalted
    cases hhalted
  · obtain ⟨hend, hpc⟩ := hholds.runSteps_of_run rfl hrun
    rw [Cells.run_append] at hrun
    obtain ⟨middle, hcode, hrest⟩ := bind_eq_ok_iff.mp hrun
    rw [List.append_assoc] at hholds
    obtain ⟨hmiddle, -⟩ := hholds.runSteps_of_run rfl hcode
    -- What the slot holds does not change between the two places.
    have hheld : Cells.SlotHolds slot (middle.store slot) (middle.run capacity between) :=
      Cells.slotHolds_run rfl hbetween
    have hzero : .store slot ∉ code → Cells.SlotHolds slot none (Cells.run capacity code {}) :=
      Cells.slotHolds_run rfl
    rw [hrest] at hheld
    rw [hcode] at hzero
    have hcell : (vm.runSteps (code ++ between).length).cellAt slot =
        (vm.runSteps code.length).cellAt slot := by
      rw [hend.cellAt_eq, hmiddle.cellAt_eq]
      exact congrArg (·.getD 0) hheld
    refine ⟨hcell ▸ hend.pushes_load hpc, fun hnone => ?_⟩
    rw [hmiddle.cellAt_eq]
    exact congrArg (·.getD 0) (hzero hnone)

end Holds

end Vm

/-! ## Loads and stores of a statement -/

/-- The variable is an operand of the term. -/
def Term.Reads (x : String) : Term → Prop
  | constant _ => False
  | name y => y = x
  | operation _ left right => left.Reads x ∨ right.Reads x

/-- The variable is an operand of the statement. -/
def Statement.Reads (x : String) : Statement → Prop
  | assignment _ a => a.Reads x
  | declaration .. => False
  | value a => a.Reads x

section Code

variable {registry : Registry} {table : SymbolTable} {slot : UInt8} {symbol : Symbol}

/-- No other variable is in the slot. -/
theorem SymbolTable.DeclaredFrom.slotOf_eq_iff (h : table.DeclaredFrom registry)
    (hget : table.get? slot = some symbol) {y : String} (hlive : table.IsLive y) :
    table.slotOf y = slot ↔ y = symbol.name := by
  constructor
  · rintro rfl
    obtain ⟨symbol', hget', rfl, -⟩ := h.exists_of_isLive hlive
    rw [hget, Option.some.injEq] at hget'
    rw [hget']
  · rintro rfl
    exact slotOf_of_lookup? (h.wellFormed.lookup?_eq_some_iff.mpr ⟨hget, rfl⟩)

/-- Conversions name no slot. -/
theorem notMem_conversion {i : Instr} (hi : i.slot? = some slot) (source target : String) :
    i ∉ conversion source target := by
  unfold conversion
  split
  · simp
  · split <;> rw [List.mem_singleton] <;> rintro rfl <;> cases hi

theorem Term.store_notMem_code (table : SymbolTable) (a : Term) : .store slot ∉ a.code table := by
  induction a with
  | constant value => simp [code]
  | name y => simp [code]
  | operation op left right ihl ihr =>
      have hop : op.instr ≠ .store slot := by cases op <;> simp [Arithmetic.instr]
      simp [code, ihl, ihr, notMem_conversion (i := .store slot) rfl, hop.symm]

theorem Term.load_mem_code_iff (h : table.DeclaredFrom registry)
    (hget : table.get? slot = some symbol) {a : Term} (ha : a.WellTyped registry table) :
    .load slot ∈ a.code table ↔ a.Reads symbol.name := by
  induction a with
  | constant value => simp [code, Reads]
  | name y =>
      have hslot := h.slotOf_eq_iff hget ha
      simp [code, Reads, ← hslot, eq_comm]
  | operation op left right ihl ihr =>
      have hop : op.instr ≠ .load slot := by cases op <;> simp [Arithmetic.instr]
      simp [code, Reads, ihl ha.1, ihr ha.2.1, notMem_conversion (i := .load slot) rfl, hop.symm]

namespace Statement

theorem load_mem_code_iff (h : table.DeclaredFrom registry)
    (hget : table.get? slot = some symbol) {st : Statement} (hst : st.WellTyped registry table) :
    .load slot ∈ st.code registry table ↔ st.Reads symbol.name := by
  cases st with
  | value a => exact Term.load_mem_code_iff h hget hst
  | declaration ty y => simp [code, Reads]
  | assignment p a =>
      have hafter : (p.after registry table).get? slot = some symbol := hst.extends_after h hget
      simp [code, Reads, notMem_conversion (i := .load slot) rfl,
        Term.load_mem_code_iff (hst.1.declaredFrom h) hafter hst.2.1]

/-- Only an assignment to the variable stores to its slot. -/
theorem assigns_of_store_mem_code (h : table.DeclaredFrom registry)
    (hget : table.get? slot = some symbol) {st : Statement} (hst : st.WellTyped registry table)
    (hmem : .store slot ∈ st.code registry table) :
    ∃ p a, st = .assignment p a ∧ p.ident = symbol.name := by
  cases st with
  | value a => exact absurd hmem (a.store_notMem_code table)
  | declaration ty y => cases hmem
  | assignment p a =>
      have hafter : (p.after registry table).get? slot = some symbol := hst.extends_after h hget
      have hslot : slot = (p.after registry table).slotOf p.ident := by
        simpa [code, Term.store_notMem_code, notMem_conversion (i := .store slot) rfl] using hmem
      refine ⟨p, a, rfl, ?_⟩
      exact ((hst.1.declaredFrom h).slotOf_eq_iff hafter (hst.1.isLive_ident h)).mp hslot.symm

/-- A statement stores after all of its loads. -/
theorem store_notMem_of_load {st : Statement} {other : UInt8} {front back : List Instr}
    (h : st.code registry table = front ++ .load other :: back) : .store slot ∉ front := by
  intro hmem
  cases st with
  | value a =>
      have hvalue : .store slot ∉ a.code table := a.store_notMem_code table
      rw [show a.code table = _ from h] at hvalue
      exact hvalue (List.mem_append_left _ hmem)
  | declaration ty y => simp [code] at h
  | assignment p a =>
      have hvalue : .store slot ∉ a.code (p.after registry table) ++
          conversion (a.typeName (p.after registry table).typeOf)
            ((p.after registry table).typeOf p.ident) := by
        simp [Term.store_notMem_code, notMem_conversion (i := .store slot) rfl]
      rw [code] at h
      -- The last instruction is the store, so that the load and all before it are in the value.
      rcases List.eq_nil_or_concat back with rfl | ⟨back, last, rfl⟩
      · cases List.append_inj_right' h rfl
      · rw [List.concat_eq_append, ← List.cons_append, ← List.append_assoc] at h
        rw [List.append_inj_left' h rfl] at hvalue
        exact hvalue (List.mem_append_left _ hmem)

end Statement

end Code

/-! ## Variables that were not assigned to -/

/-- The text is a statement of the grammar, with or without a semicolon. -/
def IsStatement (text : List Char) (st : Statement) : Prop :=
  ∃ tokens, balancedTokens text = .ok tokens ∧ Statement.Derives (dropTerminator tokens) st

theorem IsStatement.unique {text : List Char} {st st' : Statement} (h : IsStatement text st)
    (h' : IsStatement text st') : st = st' := by
  obtain ⟨tokens, htokens, hderives⟩ := h
  obtain ⟨tokens', htokens', hderives'⟩ := h'
  cases htokens.symm.trans htokens'
  exact hderives.unique hderives'

/-- The text is an assignment to the variable, and compiles. -/
def Context.Assigns (ctx : Context) (text : List Char) (x : String) : Prop :=
  ∃ p a v ctx', IsStatement text (.assignment p a) ∧ p.ident = x ∧
    ctx.compileStatement text = (.ok v, ctx')

/-- From the context `start`, a statement has declared the variable in the slot, without a value.
Since then it was neither assigned to nor freed. -/
inductive Unassigned (x : String) (slot : UInt8) (start : Context) : Context → Prop where
  | declared {text : List Char} {ty : String} {v : Value} {ctx : Context} :
      IsStatement text (.declaration ty x) → start.compileStatement text = (.ok v, ctx) →
      v.slot = some slot → Unassigned x slot start ctx
  | statement {ctx : Context} (text : List Char) :
      Unassigned x slot start ctx → ¬ ctx.Assigns text x →
      Unassigned x slot start (ctx.compileStatement text).2
  | free {ctx : Context} {other : UInt8} :
      Unassigned x slot start ctx → other ≠ slot →
      Unassigned x slot start { ctx with symbols := (ctx.symbols.free other).2 }

namespace Unassigned

variable {registry : Registry} {x : String} {slot : UInt8} {start ctx : Context} {count : Nat}

/-- The variable is in its slot, and nothing was stored there. -/
theorem invariant (h : Unassigned x slot start ctx) (hsession : Session registry start count) :
    ctx.registry = registry ∧ ctx.symbols.DeclaredFrom registry ∧
      (∃ symbol, ctx.symbols.get? slot = some symbol ∧ symbol.name = x) ∧
      ∃ added, ctx.code = start.code ++ added ∧ .store slot ∉ added := by
  induction h with
  | @declared text ty v ctx htext hcompile hslot =>
      obtain ⟨rfl, hsymbols, -⟩ := hsession.invariant
      obtain ⟨tokens, st, htokens, hderives, hwell, rfl, rfl⟩ :=
        (Context.compileStatement_eq_ok_iff hsymbols).mp hcompile
      obtain rfl := IsStatement.unique ⟨tokens, htokens, hderives⟩ htext
      obtain ⟨t, -, -, hdeclare, hafter⟩ := hsymbols.extend hwell
      cases hslot
      have hd := SymbolTable.declares_of_declare hsymbols.wellFormed.bounded hdeclare
      exact ⟨rfl, hafter, ⟨_, hd.get?_slot, rfl⟩, [], rfl, List.not_mem_nil⟩
  | @statement ctx text _ hassigns ih =>
      obtain ⟨rfl, hsymbols, ⟨symbol, hget, rfl⟩, added, hcode, hadded⟩ := ih
      rcases ctx.compileStatement_cases text with ⟨v, ctx', hcompile⟩ | ⟨d, hcompile⟩
      · obtain ⟨tokens, st, htokens, hderives, hwell, rfl, rfl⟩ :=
          (Context.compileStatement_eq_ok_iff hsymbols).mp hcompile
        have hnone : .store slot ∉ st.code ctx.registry ctx.symbols := by
          intro hmem
          obtain ⟨p, a, rfl, hident⟩ := st.assigns_of_store_mem_code hsymbols hget hwell hmem
          exact hassigns ⟨p, a, _, _, ⟨tokens, htokens, hderives⟩, hident, hcompile⟩
        rw [hcompile]
        refine ⟨rfl, hwell.declaredFrom hsymbols, ⟨symbol, hwell.extends_after hsymbols hget, rfl⟩,
          added ++ st.code ctx.registry ctx.symbols, ?_, by simp [hadded, hnone]⟩
        rw [Context.append, hcode, List.append_assoc]
      · rw [hcompile]
        exact ⟨rfl, hsymbols, ⟨symbol, hget, rfl⟩, added, hcode, hadded⟩
  | @free ctx other _ hne ih =>
      obtain ⟨hregistry, hsymbols, ⟨symbol, hget, hname⟩, hadded⟩ := ih
      refine ⟨hregistry, .free other hsymbols, ⟨symbol, ?_, hname⟩, hadded⟩
      rw [SymbolTable.get?_free, if_neg hne.symm, hget]

/-- A statement that reads a variable before it was assigned to loads it from its slot. Whatever
stands behind, a machine that gets there pushes what the slot held when the variable was declared.
This is zero unless the slot had been stored to for another variable. -/
theorem pushes_held (h : Unassigned x slot start ctx) (hsession : Session registry start count)
    {text : List Char} {v : Value} {ctx' : Context}
    (hread : ctx.compileStatement text = (.ok v, ctx')) :
    ∃ st code, IsStatement text st ∧ ctx'.code = ctx.code ++ code ∧
      (.load slot ∈ code ↔ st.Reads x) ∧
      ∀ front back, code = front ++ .load slot :: back →
        ∀ (stackSize : Option Nat) (behind : List Instr) (vm : Vm),
          vm = (Vm.new stackSize).load (assemble (ctx'.code ++ behind)) →
          (vm.runSteps (ctx.code ++ front).length).status = .running →
          (vm.runSteps (ctx.code ++ front).length).Pushes
              ((vm.runSteps start.code.length).cellAt slot) ∧
            (.store slot ∉ start.code → (vm.runSteps start.code.length).cellAt slot = 0) := by
  obtain ⟨rfl, hsymbols, ⟨symbol, hget, rfl⟩, added, hcode, hadded⟩ := h.invariant hsession
  obtain ⟨tokens, st, htokens, hderives, hwell, rfl, rfl⟩ :=
    (Context.compileStatement_eq_ok_iff hsymbols).mp hread
  refine ⟨st, st.code ctx.registry ctx.symbols, ⟨tokens, htokens, hderives⟩, rfl,
    st.load_mem_code_iff hsymbols hget hwell, ?_⟩
  intro front back hfront stackSize behind vm hvm hrunning
  have hbetween : .store slot ∉ added ++ front := by
    simp [hadded, Statement.store_notMem_of_load hfront]
  have hsplit : ctx.code ++ st.code ctx.registry ctx.symbols ++ behind =
      start.code ++ (added ++ front) ++ .load slot :: (back ++ behind) := by
    simp [hcode, hfront]
  have hholds : vm.Holds (assemble (start.code ++ (added ++ front) ++
      .load slot :: (back ++ behind))) (Vm.new stackSize).stack.capacity {} := by
    rw [hvm, Context.append, hsplit]
    exact ⟨rfl, rfl, rfl, rfl, rfl, rfl, fun _ => rfl⟩
  rw [hcode, List.append_assoc] at hrunning ⊢
  exact hholds.pushes_of_store_notMem hbetween hrunning

theorem isStatement_bare : IsStatement "int32 b".toList (.declaration "int32" "b") := by
  have htokens : (balancedTokens "int32 b".toList).toOption =
      some [⟨.identifier, 0, "int32", ""⟩, ⟨.identifier, 6, "b", " "⟩] := by
    decide +kernel
  exact ⟨_, toOption_eq_some_iff.mp htokens, .declaration rfl rfl⟩

/-- Before the read, an assignment to the variable has failed and another variable was freed. -/
theorem pushes_held_neverStored :
    ∃ (start ctx ctx' : Context) (count : Nat) (v : Value), Session .builtins start count ∧
      Unassigned "b" 1 start ctx ∧ ctx.compileStatement "b = b + 1;".toList = (.ok v, ctx') ∧
      ctx'.code = [.constInt 5, .store 0, .load 1, .constInt 1, .add, .store 1] ∧
      (((Vm.new none).load (assemble ctx'.code)).runSteps 2).Pushes 0 := by
  have hsession : Session .builtins _ _ := .statement "int32 a = 5;".toList .new
  generalize hstart : (Context.compileStatement { registry := .builtins }
    "int32 a = 5;".toList).2 = start at hsession
  generalize hbare : (start.compileStatement "int32 b".toList).2 = bare
  have hdeclared : start.compileStatement "int32 b".toList = (.ok ⟨.void, some 1⟩, bare) := by
    refine Prod.ext (toOption_eq_some_iff.mp ?_) hbare
    rw [← hstart]
    decide +kernel
  have hfails : (bare.compileStatement "b = c".toList).1.toOption = none := by
    rw [← hbare, ← hstart]
    decide +kernel
  have hassigns : ¬ bare.Assigns "b = c".toList "b" := by
    rintro ⟨p, a, v, ctx', -, -, hcompile⟩
    rw [hcompile] at hfails
    cases hfails
  have hunassigned := Unassigned.free (.statement "b = c".toList
    (.declared isStatement_bare hdeclared rfl) hassigns) (by decide : (0 : UInt8) ≠ 1)
  generalize hctx : ({ (bare.compileStatement "b = c".toList).2 with symbols := _ } : Context) =
    ctx at hunassigned
  generalize hnext : (ctx.compileStatement "b = b + 1;".toList).2 = ctx'
  have hread : ctx.compileStatement "b = b + 1;".toList = (.ok ⟨.void, some 1⟩, ctx') := by
    refine Prod.ext (toOption_eq_some_iff.mp ?_) hnext
    rw [← hctx, ← hbare, ← hstart]
    decide +kernel
  have hcode : start.code = [.constInt 5, .store 0] ∧ ctx.code = [.constInt 5, .store 0] ∧
      ctx'.code = [.constInt 5, .store 0, .load 1, .constInt 1, .add, .store 1] := by
    rw [← hnext, ← hctx, ← hbare, ← hstart]
    decide +kernel
  obtain ⟨hbefore, hcode, hcode'⟩ := hcode
  obtain ⟨st, code, -, happend, -, hpushes⟩ := hunassigned.pushes_held hsession hread
  rw [hcode, hcode'] at happend
  cases happend
  obtain ⟨hpush, hzero⟩ := hpushes [] _ rfl none [] _ rfl (by rw [hcode, hcode']; decide +kernel)
  rw [hzero (by rw [hbefore]; decide), hcode, List.append_nil] at hpush
  exact ⟨start, ctx, ctx', _, _, hsession, hunassigned, hread, hcode', hpush⟩

/-- The variable has the slot of one that was freed, and starts with the value of that one. -/
theorem pushes_value_of_freed :
    ∃ (start ctx ctx' : Context) (count : Nat) (v : Value), Session .builtins start count ∧
      Unassigned "b" 0 start ctx ∧ ctx.compileStatement "b".toList = (.ok v, ctx') ∧
      ctx'.code = [.constInt 5, .store 0, .load 0] ∧
      (((Vm.new none).load (assemble ctx'.code)).runSteps 2).Pushes 5 ∧
      ¬ (((Vm.new none).load (assemble ctx'.code)).runSteps 2).Pushes 0 := by
  have hsession : Session .builtins _ _ := .free 0 (.statement "int32 a = 5;".toList .new)
  generalize hstart : ({ (Context.compileStatement { registry := .builtins }
    "int32 a = 5;".toList).2 with symbols := _ } : Context) = start at hsession
  generalize hbare : (start.compileStatement "int32 b".toList).2 = ctx
  have hdeclared : start.compileStatement "int32 b".toList = (.ok ⟨.void, some 0⟩, ctx) := by
    refine Prod.ext (toOption_eq_some_iff.mp ?_) hbare
    rw [← hstart]
    decide +kernel
  generalize hnext : (ctx.compileStatement "b".toList).2 = ctx'
  have hread : ctx.compileStatement "b".toList = (.ok ⟨.int32, some 0⟩, ctx') := by
    refine Prod.ext (toOption_eq_some_iff.mp ?_) hnext
    rw [← hbare, ← hstart]
    decide +kernel
  have hcode : ctx'.code = [.constInt 5, .store 0, .load 0] := by
    rw [← hnext, ← hbare, ← hstart]
    decide +kernel
  refine ⟨start, ctx, ctx', _, _, hsession, .declared isStatement_bare hdeclared rfl, hread,
    hcode, ?_⟩
  rw [hcode]
  decide +kernel

end Unassigned

end StackScript
