import StackScript.Proofs.CellMachine
import StackScript.Proofs.Script

/-! # The height of the stack

Compiled code never takes a cell that is not there. Over a whole session it leaves one cell for
each statement that left a value. -/

namespace StackScript

/-! ## Heights -/

/-- Height of the stack behind some code; none if an instruction takes more cells than there
are. -/
def heightAfter (code : List Instr) (height : Nat) : Option Nat :=
  code.foldlM (fun h i => if i.pops ≤ h then some (h - i.pops + i.pushes) else none) height

theorem heightAfter_append (xs ys : List Instr) (height : Nat) :
    heightAfter (xs ++ ys) height = (heightAfter xs height).bind (heightAfter ys) :=
  List.foldlM_append

theorem heightAfter_cons_eq_some_iff {i : Instr} {code : List Instr} {height last : Nat} :
    heightAfter (i :: code) height = some last ↔
      i.pops ≤ height ∧ heightAfter code (height - i.pops + i.pushes) = some last := by
  rw [heightAfter, List.foldlM_cons]
  by_cases h : i.pops ≤ height <;> simp [h, heightAfter]

theorem heightAfter_conversion (source target : String) (height : Nat) :
    heightAfter (conversion source target) (height + 1) = some (height + 1) := by
  unfold conversion
  split
  · rfl
  · split <;> rfl

theorem heightAfter_term (table : SymbolTable) (a : Term) (height : Nat) :
    heightAfter (a.code table) height = some (height + 1) := by
  induction a generalizing height with
  | constant value => rfl
  | name x => rfl
  | operation op left right ihl ihr =>
      rw [Term.code, heightAfter_append, heightAfter_append, heightAfter_append, ihl,
        Option.bind_some, ihr, Option.bind_some, heightAfter_conversion, Option.bind_some]
      cases op <;> rfl

theorem heightAfter_statement (registry : Registry) (table : SymbolTable) (st : Statement)
    (height : Nat) :
    heightAfter (st.code registry table) height = some (height + if st.isValue then 1 else 0) := by
  cases st with
  | assignment p a =>
      rw [Statement.code, heightAfter_append, heightAfter_append, heightAfter_term,
        Option.bind_some, heightAfter_conversion, Option.bind_some]
      rfl
  | declaration ty x => rfl
  | value a => exact heightAfter_term table a height

theorem Program.WellTyped.heightAfter_code {registry : Registry} {table : SymbolTable}
    {program : List Statement} (h : WellTyped registry table program) (height : Nat) :
    heightAfter (code registry table program) height = some height := by
  induction program generalizing table with
  | nil => rfl
  | cons st program ih =>
      obtain ⟨-, hvalue, hrest⟩ := h
      rw [code, heightAfter_append, heightAfter_statement, hvalue]
      exact ih hrest

/-! ## Runs -/

/-- The run ends at the given height, or stops at a zero divisor or at a full stack. -/
def Cells.EndsAt (height : Nat) : Step Cells → Prop
  | .ok s => s.stack.length = height
  | .error (.divideByZero _, _) | .error (.stackOverflow .., _) => True
  | .error _ => False

/-- Code that never takes too many cells ends at its height on every machine. -/
theorem Cells.endsAt_run {capacity height : Nat} {code : List Instr} {s : Cells}
    (h : heightAfter code s.stack.length = some height) :
    EndsAt height (s.run capacity code) := by
  induction code generalizing s with
  | nil => exact Option.some.inj h
  | cons i code ih =>
      obtain ⟨hpops, hrest⟩ := heightAfter_cons_eq_some_iff.mp h
      have hmoves : s.Moves _ _ _ (s.act capacity i) := moves_act i
      rw [run_cons]
      rcases hact : s.act capacity i with ⟨fault, s'⟩ | s'
      · rw [hact] at hmoves
        cases fault with
        | divideByZero | stackOverflow => trivial
        | stackUnderflow => exact absurd hmoves (Nat.not_lt.mpr hpops)
        | _ => exact hmoves
      · rw [hact] at hmoves
        obtain ⟨-, -, hlen⟩ := hmoves
        have hheight : s'.stack.length = s.stack.length - i.pops + i.pushes := by omega
        exact ih (hheight ▸ hrest)

/-! ## Sessions -/

/-- Number of cells that the code of a statement leaves on the stack. -/
def cellsLeft : Except Diagnostic Value → Nat
  | .ok value => if value.ty.isVoid then 0 else 1
  | .error _ => 0

/-- A context that was fed single statements, whether or not they compiled, and scripts that
compiled; in between, variables were freed and the context was reset. With it goes the number of
statements since the last reset or script that left a value. -/
inductive Session (registry : Registry) : Context → Nat → Prop where
  | new : Session registry { registry } 0
  | statement {ctx : Context} {count : Nat} (text : List Char) :
      Session registry ctx count →
      Session registry (ctx.compileStatement text).2
        (count + cellsLeft (ctx.compileStatement text).1)
  | free {ctx : Context} {count : Nat} (slot : UInt8) :
      Session registry ctx count →
      Session registry { ctx with symbols := (ctx.symbols.free slot).2 } count
  | reset {ctx : Context} {count : Nat} :
      Session registry ctx count → Session registry ctx.reset 0
  | script {ctx ctx' : Context} {count : Nat} {source : List Char} {c : Compilation} :
      Session registry ctx count → ctx.compile source = (.ok c, ctx') → Session registry ctx' 0

namespace Session

variable {registry : Registry} {ctx : Context} {count : Nat}

/-- The variables are those of the registry, and the code counts the values that were left. -/
theorem invariant (h : Session registry ctx count) :
    ctx.registry = registry ∧ ctx.symbols.DeclaredFrom registry ∧
      heightAfter ctx.code 0 = some count := by
  induction h with
  | new => exact ⟨rfl, .empty, rfl⟩
  | @statement ctx count text _ ih =>
      obtain ⟨rfl, hsymbols, hheight⟩ := ih
      rcases ctx.compileStatement_cases text with ⟨v, ctx', hcompile⟩ | ⟨d, hcompile⟩
      · obtain ⟨tokens, st, -, -, hwell, rfl, rfl⟩ :=
          (Context.compileStatement_eq_ok_iff hsymbols).mp hcompile
        rw [hcompile]
        refine ⟨rfl, hwell.declaredFrom hsymbols, ?_⟩
        rw [Context.append, heightAfter_append, hheight, Option.bind_some, heightAfter_statement,
          cellsLeft, hwell.isVoid_result hsymbols]
        cases st.isValue <;> rfl
      · rw [hcompile]
        exact ⟨rfl, hsymbols, hheight⟩
  | free slot _ ih => exact ⟨ih.1, .free slot ih.2.1, ih.2.2⟩
  | reset _ ih => exact ⟨ih.1, .empty, rfl⟩
  | script _ hcompile ih =>
      obtain ⟨statements, program, -, -, hprogram, -, hregistry, hsymbols, hcode⟩ :=
        Context.compile_eq_ok hcompile
      obtain ⟨rfl, -, -⟩ := ih
      refine ⟨hregistry, ?_, ?_⟩
      · rw [hsymbols]
        exact hprogram.declaredFrom .empty
      · rw [hcode]
        exact hprogram.heightAfter_code 0

/-- The code of a session runs to its end with one cell for each value that was left, unless a
division by zero or a full stack stops it. Nothing else can. -/
theorem run_halts (h : Session registry ctx count) (stackSize : Option Nat) :
    (((Vm.new stackSize).run (assemble ctx.code)).status = .halted .normal ∧
        ((Vm.new stackSize).run (assemble ctx.code)).stack.position = 4 * count) ∨
      (∃ offset, ((Vm.new stackSize).run (assemble ctx.code)).status =
        .halted (.fault (.divideByZero offset))) ∨
      ∃ requested position capacity, ((Vm.new stackSize).run (assemble ctx.code)).status =
        .halted (.fault (.stackOverflow requested position capacity)) := by
  obtain ⟨-, -, hheight⟩ := h.invariant
  obtain ⟨vm, hholds, hrun⟩ := (Vm.new stackSize).run_assemble ctx.code
  have hends : Cells.EndsAt count (Cells.run (Vm.new stackSize).stack.capacity ctx.code {}) :=
    Cells.endsAt_run hheight
  rw [hrun]
  rcases hresult : Cells.run (Vm.new stackSize).stack.capacity ctx.code {} with ⟨fault, s⟩ | s
  · rw [hresult] at hends
    cases fault with
    | divideByZero offset => exact .inr (.inl ⟨offset, rfl⟩)
    | stackOverflow requested position capacity =>
        exact .inr (.inr ⟨requested, position, capacity, rfl⟩)
    | _ => exact hends.elim
  · rw [hresult] at hends hholds
    refine .inl ⟨rfl, ?_⟩
    rw [Vm.halt, hholds.position_eq]
    exact congrArg (4 * ·) hends

/-- A statement that fails leaves no cell, and a variable that is freed leaves its value behind. -/
theorem run_halts_after_free :
    ∃ ctx, Session .builtins ctx 2 ∧ ctx.symbols.isEmpty = true ∧
      ((Vm.new (some 12)).run (assemble ctx.code)).status = .halted .normal ∧
      ((Vm.new (some 12)).run (assemble ctx.code)).stack.position = 4 * 2 := by
  have hsession : ∃ ctx count, Session .builtins ctx count ∧ count = 2 ∧
      ctx.symbols.isEmpty = true ∧
      ((Vm.new (some 12)).run (assemble ctx.code)).status = .halted .normal :=
    ⟨_, _, .statement "-3".toList (.free 0 (.statement "x / (x - 2);".toList
      (.statement "(x".toList (.statement "int32 x = 7;".toList .new)))),
      by decide +kernel, by decide +kernel, by decide +kernel⟩
  obtain ⟨ctx, _, hsession, rfl, hempty, hstatus⟩ := hsession
  refine ⟨ctx, hsession, hempty, hstatus, ?_⟩
  rcases hsession.run_halts (some 12) with ⟨-, hposition⟩ | ⟨_, h⟩ | ⟨_, _, _, h⟩
  · exact hposition
  · rw [hstatus] at h
    cases h
  · rw [hstatus] at h
    cases h

end Session

end StackScript
