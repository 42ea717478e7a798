import StackScript.Proofs.Nesting
import StackScript.Proofs.TypedCode

/-! # Compiling preserves meaning

A compiled script computes the same cells as the evaluation of its statements, and divides by zero
where the evaluation is cut short. -/

namespace StackScript

/-! ## Declarations and assignments -/

namespace Memory

variable {registry : Registry} {table : SymbolTable} {m : Memory} {store : UInt8 → Option Cell}

theorem agrees_empty : ({} : Memory).Agrees {} fun _ => none := by
  have hlookup : ∀ x, ({} : SymbolTable).lookup? x = none := by
    intro x
    refine SymbolTable.wellFormed_empty.lookup?_eq_none_iff.mpr ?_
    intro slot symbol hget
    rw [SymbolTable.get?_empty] at hget
    cases hget
  refine ⟨?_, fun hget => ?_, fun _ => rfl, fun _ => rfl⟩
  · funext x
    simp [SymbolTable.typeOf, hlookup]
  · rw [SymbolTable.get?_empty] at hget
    cases hget

/-- A new variable is zero, and so is its slot. -/
theorem Agrees.declare (hm : m.Agrees table store) (h : table.DeclaredFrom registry)
    {ty x : String} (hd : Declarable registry table ty x) :
    (m.declare ty x).Agrees (table.extend registry ty x) store := by
  obtain ⟨t, -, -, hdeclare, -⟩ := h.extend hd
  have hdeclares := SymbolTable.declares_of_declare h.wellFormed.bounded hdeclare
  have hnew := hd.2.2.1
  have hother : ∀ {y}, y ≠ x → (table.extend registry ty x).lookup? y = table.lookup? y :=
    hdeclares.lookup?_of_ne h.wellFormed
  refine ⟨?_, ?_, ?_, ?_⟩
  · funext y
    by_cases hy : y = x
    · subst hy
      simp [Memory.declare, h.typeOf_extend hd]
    · simp [Memory.declare, hy, hm.types, SymbolTable.typeOf, hother hy]
  · intro slot symbol hget
    rcases hdeclares.eq_or_get? hget with ⟨rfl, rfl⟩ | hget
    · rw [hm.unused hdeclares.free]
      exact (hm.fresh hnew).symm
    · exact hm.cells hget
  · intro slot hget
    refine hm.unused ?_
    cases hold : table.get? slot with
    | none => rfl
    | some symbol =>
        rw [hdeclares.get?_of_some hold] at hget
        cases hget
  · intro y hy
    refine hm.fresh fun hlive => hy ?_
    rwa [SymbolTable.IsLive, hother fun heq => hnew (heq ▸ hlive)]

/-- Storing to the slot of a variable sets it. -/
theorem Agrees.set (hm : m.Agrees table store) (h : table.WellFormed) {slot : UInt8}
    {symbol : Symbol} (hget : table.get? slot = some symbol) (cell : Cell) :
    (m.set symbol.name cell).Agrees table fun s => if s = slot then some cell else store s := by
  refine ⟨hm.types, ?_, ?_, ?_⟩
  · intro other found hfound
    by_cases hslot : other = slot
    · subst hslot
      rw [hget, Option.some.injEq] at hfound
      subst hfound
      simp [Memory.set]
    · have hname : found.name ≠ symbol.name := fun heq => hslot (h.distinct hfound hget heq)
      simp only [Memory.set, if_neg hslot, if_neg hname]
      exact hm.cells hfound
  · intro other hother
    have hslot : other ≠ slot := by
      rintro rfl
      rw [hget] at hother
      cases hother
    simp [hslot, hm.unused hother]
  · intro x hx
    have hname : x ≠ symbol.name := by
      rintro rfl
      exact hx (SymbolTable.isLive_iff.mpr ⟨slot, symbol, h.lookup?_eq_some_iff.mpr ⟨hget, rfl⟩⟩)
    simp [Memory.set, hname, hm.fresh hx]

/-- Where there are more variables than those in use so far, the others are zero. -/
theorem Agrees.cells_of_extends (hm : m.Agrees table store) (h : table.WellFormed)
    {table' : SymbolTable} (h' : table'.WellFormed) (hext : table'.Extends table) {slot : UInt8}
    {symbol : Symbol} (hget : table'.get? slot = some symbol) :
    (store slot).getD 0 = m.cells symbol.name := by
  cases hold : table.get? slot with
  | some old =>
      rw [hext hold, Option.some.injEq] at hget
      subst hget
      exact hm.cells hold
  | none =>
      rw [hm.unused hold, hm.fresh]
      · rfl
      · intro hlive
        obtain ⟨slot', symbol', hlookup⟩ := SymbolTable.isLive_iff.mp hlive
        obtain ⟨hget', hname⟩ := h.lookup?_eq_some_iff.mp hlookup
        obtain rfl := h'.distinct (hext hget') hget hname
        rw [hold] at hget'
        cases hget'

end Memory

theorem Place.WellTyped.agrees {registry : Registry} {table : SymbolTable} {m : Memory}
    {store : UInt8 → Option Cell} {p : Place} (hp : p.WellTyped registry table)
    (h : table.DeclaredFrom registry) (hm : m.Agrees table store) :
    (p.prepare m).Agrees (p.after registry table) store := by
  cases p with
  | name x => exact hm
  | declaration ty x => exact hm.declare h hp

/-! ## Statements and programs -/

section

variable {registry : Registry} {table : SymbolTable} {m : Memory} {capacity : Nat} {s : Cells}

/-- A statement leaves the memory behind it, or stops where there is none. -/
theorem Statement.WellTyped.run_code {st : Statement} (h : table.DeclaredFrom registry)
    (hm : m.Agrees table s.store) (hst : st.WellTyped registry table)
    (hvalue : st.isValue = false)
    (hroom : Cell.width * (s.stack.length + st.height) ≤ capacity) :
    match st.eval m with
    | some m' => ∃ s', s.run capacity (st.code registry table) = .ok s' ∧ s'.stack = s.stack ∧
        m'.Agrees (st.after registry table) s'.store
    | none => ∃ offset s',
        s.run capacity (st.code registry table) = .error (.divideByZero offset, s') ∧
          s'.store = s.store := by
  cases st with
  | value a => cases hvalue
  | declaration ty x => exact ⟨s, rfl, rfl, hm.declare h hst⟩
  | assignment p a =>
      obtain ⟨hp, ha, hconv⟩ := hst
      have hafter := hp.declaredFrom h
      have hplace := hp.agrees h hm
      have hcompute := ha.computes_code hafter hplace hroom
      obtain ⟨symbol, hget, hname, -⟩ := hafter.exists_of_isLive (hp.isLive_ident h)
      rw [code, List.append_assoc]
      cases heval : a.eval (p.prepare m) with
      | none =>
          rw [heval] at hcompute
          obtain ⟨offset, s', hrun, hstore⟩ := hcompute
          simp only [Statement.eval, heval]
          refine ⟨offset, s', ?_, hstore⟩
          rw [Cells.run_append, hrun]
          rfl
      | some cell =>
          rw [heval] at hcompute
          obtain ⟨s₁, hrun₁, hstack₁, hstore₁⟩ := hcompute
          have hroom₁ : Cell.width * s₁.stack.length ≤ capacity := by
            have hpos := a.height_pos
            simp only [hstack₁, List.length_cons, Cell.width, height] at hroom ⊢
            omega
          obtain ⟨s₂, hrun₂, hstack₂, hstore₂⟩ := Cells.run_conversion
            (a.typeName (p.after registry table).typeOf) ((p.after registry table).typeOf p.ident)
            hstack₁ hroom₁
          rw [Cells.run_append_of_ok hrun₁, Cells.run_append_of_ok hrun₂, Cells.run_singleton,
            Cells.act_store _ hstack₂, hstore₂, hstore₁]
          simp only [Statement.eval, heval, hplace.types]
          have hset := hplace.set hafter.wellFormed hget
            (convert (a.typeName (p.after registry table).typeOf)
              ((p.after registry table).typeOf p.ident) cell)
          rw [hname] at hset
          exact ⟨_, rfl, rfl, hset⟩

/-- How a machine halts where an evaluation ends. -/
def Outcome.Halts (o : Outcome) (halt : Halt) : Prop :=
  if o.aborted then ∃ offset, halt = .fault (.divideByZero offset) else halt = .normal

/-- A program ends with the memory of its evaluation. Where it is cut short, only some of its
variables are in use. -/
theorem Program.WellTyped.run_code {program : List Statement} (h : table.DeclaredFrom registry)
    (hm : m.Agrees table s.store) (hp : WellTyped registry table program)
    (hroom : ∀ st ∈ program, Cell.width * (s.stack.length + st.height) ≤ capacity) :
    ∃ halt s' table', Cells.final (s.run capacity (code registry table program)) = (halt, s') ∧
      (eval m program).Halts halt ∧ (halt = .normal → s'.stack = s.stack) ∧
      (eval m program).memory.Agrees table' s'.store ∧ table'.DeclaredFrom registry ∧
      (after registry table program).Extends table' := by
  induction program generalizing table m s with
  | nil => exact ⟨.normal, s, table, rfl, rfl, fun _ => rfl, hm, h, fun _ _ hget => hget⟩
  | cons st program ih =>
      have hext := hp.extends_after h
      obtain ⟨hst, hvalue, hrest⟩ := hp
      have hrun := hst.run_code h hm hvalue (hroom st List.mem_cons_self)
      rw [code]
      cases heval : st.eval m with
      | none =>
          rw [heval] at hrun
          obtain ⟨offset, s', hrun, hstore⟩ := hrun
          refine ⟨.fault (.divideByZero offset), s', table, ?_, ?_, ?_, ?_, h, hext⟩
          · rw [Cells.run_append, hrun]
            rfl
          · simp [eval, heval, Outcome.Halts]
          · intro hnormal
            cases hnormal
          · rw [hstore]
            simpa only [eval, heval] using hm
      | some m' =>
          rw [heval] at hrun
          obtain ⟨s', hrun, hstack, hagrees⟩ := hrun
          obtain ⟨halt, last, table', hfinal, hhalts, hlast, hmemory, hdeclared, hext'⟩ :=
            ih (hst.declaredFrom h) hagrees hrest
              fun st hmem => hstack ▸ hroom st (List.mem_cons_of_mem _ hmem)
          rw [Cells.run_append_of_ok hrun]
          simp only [eval, heval]
          exact ⟨halt, last, table', hfinal, hhalts, fun hnormal => (hlast hnormal).trans hstack,
            hmemory, hdeclared, hext'⟩

/-- A script that compiles reads as one program. With room for its brackets, the bytecode runs to
its end with nothing on the stack, or divides by zero if that cuts the evaluation of the program
short. Each variable then has in its slot the cell that the evaluation gave it. -/
theorem compile_preserves_meaning {source : String} {c : Compilation}
    (hc : compile registry source = .ok c) :
    ∃ statements program, globalStatements source.toList = .ok statements ∧
      Program.Derives statements program ∧
      (∀ other, Program.Derives statements other → other = program) ∧
      ∀ stackSize, 8 * greatestDepth statements + 12 ≤ (Vm.new stackSize).stack.capacity →
        ((Program.eval {} program).aborted = false →
          ((Vm.new stackSize).run c.bytecode).status = .halted .normal ∧
            ((Vm.new stackSize).run c.bytecode).stack.position = 0) ∧
        ((Program.eval {} program).aborted = true → ∃ offset,
          ((Vm.new stackSize).run c.bytecode).status = .halted (.fault (.divideByZero offset))) ∧
        ∀ slot symbol, (slot, symbol) ∈ c.symbols.live →
          (((Vm.new stackSize).run c.bytecode).store.read? slot.toNat Cell.width).elim 0
            Cell.ofBytes = (Program.eval {} program).memory.cells symbol.name := by
  obtain ⟨statements, program, hstatements, hderives, hprogram, rfl, -, hsymbols, hcode⟩ :=
    Context.compile_eq_ok (Prod.ext hc rfl)
  refine ⟨statements, program, hstatements, hderives, fun _ hother => hother.unique hderives, ?_⟩
  intro stackSize hcapacity
  have hroom : ∀ st ∈ program,
      Cell.width * (([] : List Cell).length + st.height) ≤ (Vm.new stackSize).stack.capacity := by
    intro st hst
    have hheight := hderives.height_le st hst
    simp only [Cell.width, List.length_nil]
    omega
  obtain ⟨halt, s, table, hfinal, hhalts, hstack, hmemory, hdeclared, hext⟩ :=
    hprogram.run_code (s := {}) .empty Memory.agrees_empty hroom
  obtain ⟨vm, hholds, hrun⟩ := (Vm.new stackSize).run_assemble (Program.code registry {} program)
  rw [hfinal] at hholds hrun
  simp only [Compilation.bytecode, Context.compilation, hcode, hsymbols, hrun]
  have hwell := (hprogram.declaredFrom .empty).wellFormed
  refine ⟨?_, ?_, ?_⟩
  · intro hfinished
    rw [Outcome.Halts, hfinished] at hhalts
    obtain rfl : halt = .normal := hhalts
    refine ⟨rfl, ?_⟩
    rw [Vm.halt, hholds.position_eq, hstack rfl]
    rfl
  · intro haborted
    rw [Outcome.Halts, haborted] at hhalts
    obtain ⟨offset, rfl⟩ : ∃ offset, halt = .fault (.divideByZero offset) := hhalts
    exact ⟨offset, rfl⟩
  · intro slot symbol hmem
    rw [Vm.halt, hholds.read?_elim]
    exact hmemory.cells_of_extends hdeclared.wellFormed hwell hext
      ((SymbolTable.mem_live_iff hwell.bounded).mp hmem)

end

/-- The second statement divides by zero, and the third is not reached. -/
theorem compile_preserves_meaning_cut_short :
    ∃ c statements program,
      compile .builtins "int32 x = (9 - 2) * 3 % 8; x = x / (x - 5); x = 1;" = .ok c ∧
      globalStatements "int32 x = (9 - 2) * 3 % 8; x = x / (x - 5); x = 1;".toList =
        .ok statements ∧ Program.Derives statements program ∧ greatestDepth statements = 1 ∧
      (Program.eval {} program).aborted = true ∧
      (Program.eval {} program).memory.cells "x" = 5 := by
  have hc : compile .builtins "int32 x = (9 - 2) * 3 % 8; x = x / (x - 5); x = 1;" =
      .ok ((compile .builtins "int32 x = (9 - 2) * 3 % 8; x = x / (x - 5); x = 1;").toOption.getD
        ⟨[], {}, []⟩) :=
    toOption_eq_some_iff.mp (by decide +kernel)
  obtain ⟨statements, program, hstatements, hderives, -, hrun⟩ := compile_preserves_meaning hc
  have hdepth : greatestDepth statements = 1 := by
    have hsome : (globalStatements
        "int32 x = (9 - 2) * 3 % 8; x = x / (x - 5); x = 1;".toList).toOption.map greatestDepth =
          some 1 := by decide +kernel
    rw [hstatements] at hsome
    exact Option.some.inj hsome
  obtain ⟨hnormal, -, hcells⟩ := hrun (some 20) (by rw [hdepth]; decide)
  refine ⟨_, statements, program, hc, hstatements, hderives, hdepth, ?_, ?_⟩
  · rw [← Bool.not_eq_false]
    intro hfinished
    exact absurd (hnormal hfinished).1 (by decide +kernel)
  · rw [← hcells 0 ⟨"x", Ty.int32⟩ (by decide +kernel)]
    decide +kernel

end StackScript
