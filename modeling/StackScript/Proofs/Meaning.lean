import StackScript.Proofs.CellMachine
import StackScript.Proofs.Script

/-! # The meaning of programs

Statements are evaluated over the cells of their variables, which are known by their names. There
are no slots, no stack and no code; where the code of a program does something else than this, it
is wrong. -/

namespace StackScript

/-! ## Evaluation -/

/-- Arithmetic on 32-bit integers. Results wrap around, quotients are truncated toward zero, and
there is none by zero. -/
def Arithmetic.eval : Arithmetic → Cell → Cell → Option Cell
  | add, a, b => some (BitVec.ofInt 32 (a.toInt + b.toInt))
  | sub, a, b => some (BitVec.ofInt 32 (a.toInt - b.toInt))
  | mul, a, b => some (BitVec.ofInt 32 (a.toInt * b.toInt))
  | div, a, b => if b.toInt = 0 then none else some (BitVec.ofInt 32 (a.toInt.tdiv b.toInt))
  | mod, a, b => if b.toInt = 0 then none else some (BitVec.ofInt 32 (a.toInt.tmod b.toInt))

example : Arithmetic.div.eval (BitVec.intMin 32) (-1) = some (BitVec.intMin 32) ∧
    Arithmetic.mod.eval (BitVec.intMin 32) (-1) = some 0 := by decide

/-- A cell of one type as a cell of another. -/
def convert (source target : String) (cell : Cell) : Cell :=
  if source = target then cell
  else if target = Ty.float.name then Binary32.ofIntCell cell
  else Binary32.toIntCell cell

/-- The types and cells of the variables. A variable that was never assigned is zero. -/
structure Memory where
  types : String → String := fun _ => ""
  cells : String → Cell := fun _ => 0

namespace Memory

def declare (m : Memory) (ty x : String) : Memory :=
  { m with types := fun y => if y = x then ty else m.types y }

def set (m : Memory) (x : String) (cell : Cell) : Memory :=
  { m with cells := fun y => if y = x then cell else m.cells y }

end Memory

/-- The value of a term, unless it divides by zero. A right operand of another type is converted to
the type of the left one. -/
def Term.eval (m : Memory) : Term → Option Cell
  | constant value => some (BitVec.ofInt 32 value)
  | name x => some (m.cells x)
  | operation op left right => do
      let a ← left.eval m
      let b ← right.eval m
      op.eval a (convert (right.typeName m.types) (left.typeName m.types) b)

def Place.prepare (m : Memory) : Place → Memory
  | name _ => m
  | declaration ty x => m.declare ty x

/-- The memory behind a statement, unless it divides by zero. -/
def Statement.eval (m : Memory) : Statement → Option Memory
  | assignment p a => do
      let cell ← a.eval (p.prepare m)
      return (p.prepare m).set p.ident
        (convert (a.typeName (p.prepare m).types) ((p.prepare m).types p.ident) cell)
  | declaration ty x => some (m.declare ty x)
  | value a => (a.eval m).map fun _ => m

/-- The memory at the end of a program, which a division by zero cuts short. -/
structure Outcome where
  memory : Memory
  aborted : Bool

def Program.eval : Memory → List Statement → Outcome
  | m, [] => ⟨m, false⟩
  | m, st :: program =>
      match st.eval m with
      | none => ⟨m, true⟩
      | some m' => eval m' program

/-! ## Cells that a term needs -/

/-- The most cells that the code of a term has on the stack at a time. -/
def Term.height : Term → Nat
  | constant _ | name _ => 1
  | operation _ left right => max left.height (right.height + 1)

theorem Term.height_pos (a : Term) : 0 < a.height := by
  induction a with
  | constant value => exact Nat.one_pos
  | name x => exact Nat.one_pos
  | operation op left right ihl _ => exact Nat.lt_of_lt_of_le ihl (Nat.le_max_left _ _)

def Statement.height : Statement → Nat
  | assignment _ a | value a => a.height
  | declaration .. => 0

/-! ## Steps with enough room -/

namespace Cells

variable {capacity next : Nat} {s : Cells} {a b : Cell} {rest : List Cell}

theorem push_of_le (cell : Cell) (h : Cell.width * (s.stack.length + 1) ≤ capacity) :
    s.push capacity next cell = .ok { s with stack := cell :: s.stack, pc := next } := by
  rw [push, if_neg (by rw [Nat.mul_succ] at h; omega)]

theorem act_store (slot : UInt8) (hs : s.stack = a :: rest) :
    s.act capacity (.store slot) = .ok { s with
      stack := rest
      pc := s.pc + (Instr.store slot).size
      store := fun x => if x = slot then some a else s.store x } := by
  have hpop : s.pop = .ok (a, { s with stack := rest }) := by rw [pop, hs]
  simp only [act, hpop]
  rfl

theorem unary_of_le (op : Cell → Cell) (hs : s.stack = a :: rest)
    (h : Cell.width * s.stack.length ≤ capacity) :
    s.unary capacity next op = .ok { s with stack := op a :: rest, pc := next } := by
  have hpop : s.pop = .ok (a, { s with stack := rest }) := by rw [pop, hs]
  rw [hs] at h
  simp only [unary, hpop]
  exact push_of_le (op a) h

theorem binary_of_le (op : Cell → Cell → Option Cell) (hs : s.stack = b :: a :: rest)
    (h : Cell.width * s.stack.length ≤ capacity) :
    s.binary capacity next op =
      match op a b with
      | none => .error (.divideByZero s.pc, { s with stack := rest })
      | some cell => .ok { s with stack := cell :: rest, pc := next } := by
  have hpop : s.pop = .ok (b, { s with stack := a :: rest }) := by rw [pop, hs]
  have hpop' : pop { s with stack := a :: rest } = .ok (a, { s with stack := rest }) := rfl
  have hroom : Cell.width * (rest.length + 1) ≤ capacity := by
    rw [hs, List.length_cons, List.length_cons, Nat.mul_succ] at h
    omega
  simp only [binary, hpop, bind, Except.bind, hpop']
  cases op a b with
  | none => rfl
  | some cell => exact push_of_le cell hroom

end Cells

/-- The machine computes what the integers do. -/
theorem Cells.act_instr {capacity : Nat} {s : Cells} {a b : Cell} {rest : List Cell}
    (op : Arithmetic) (hs : s.stack = b :: a :: rest)
    (h : Cell.width * s.stack.length ≤ capacity) :
    s.act capacity op.instr =
      match op.eval a b with
      | none => .error (.divideByZero s.pc, { s with stack := rest })
      | some cell => .ok { s with stack := cell :: rest, pc := s.pc + op.instr.size } := by
  have hzero : (b = 0) = (b.toInt = 0) := by
    rw [eq_iff_iff]
    exact ⟨fun hb => hb ▸ rfl, fun hb => BitVec.eq_of_toInt_eq hb⟩
  cases op with
  | add =>
      have heq : a + b = BitVec.ofInt 32 (a.toInt + b.toInt) :=
        BitVec.eq_of_toInt_eq (by rw [BitVec.toInt_add, BitVec.toInt_ofInt])
      simp only [Arithmetic.instr, act, binary_of_le _ hs h, Arithmetic.eval, heq]
  | sub =>
      have heq : a - b = BitVec.ofInt 32 (a.toInt - b.toInt) :=
        BitVec.eq_of_toInt_eq (by rw [BitVec.toInt_sub, BitVec.toInt_ofInt])
      simp only [Arithmetic.instr, act, binary_of_le _ hs h, Arithmetic.eval, heq]
  | mul =>
      have heq : a * b = BitVec.ofInt 32 (a.toInt * b.toInt) :=
        BitVec.eq_of_toInt_eq (by rw [BitVec.toInt_mul, BitVec.toInt_ofInt])
      simp only [Arithmetic.instr, act, binary_of_le _ hs h, Arithmetic.eval, heq]
  | div =>
      have heq : a.sdiv b = BitVec.ofInt 32 (a.toInt.tdiv b.toInt) :=
        BitVec.eq_of_toInt_eq (by rw [BitVec.toInt_sdiv, BitVec.toInt_ofInt])
      simp only [Arithmetic.instr, act, binary_of_le _ hs h, Arithmetic.eval, unlessZero, heq,
        hzero]
  | mod =>
      have heq : a.srem b = BitVec.ofInt 32 (a.toInt.tmod b.toInt) := by
        rw [← BitVec.toInt_srem, BitVec.ofInt_toInt]
      simp only [Arithmetic.instr, act, binary_of_le _ hs h, Arithmetic.eval, unlessZero, heq,
        hzero]

theorem Cells.run_conversion {capacity : Nat} {s : Cells} {a : Cell} {rest : List Cell}
    (source target : String) (hs : s.stack = a :: rest)
    (h : Cell.width * s.stack.length ≤ capacity) :
    ∃ s', s.run capacity (conversion source target) = .ok s' ∧
      s'.stack = convert source target a :: rest ∧ s'.store = s.store := by
  unfold conversion convert
  split
  · exact ⟨s, rfl, hs, rfl⟩
  · split
    · exact ⟨_, (run_singleton capacity s _).trans (unary_of_le _ hs h), rfl, rfl⟩
    · exact ⟨_, (run_singleton capacity s _).trans (unary_of_le _ hs h), rfl, rfl⟩

/-! ## Memory and store -/

/-- Every variable has its cell in its slot. What is not a variable is not in use. -/
structure Memory.Agrees (m : Memory) (table : SymbolTable) (store : UInt8 → Option Cell) :
    Prop where
  types : m.types = table.typeOf
  cells : ∀ {slot symbol}, table.get? slot = some symbol → (store slot).getD 0 = m.cells symbol.name
  unused : ∀ {slot}, table.get? slot = none → store slot = none
  fresh : ∀ {x}, ¬ table.IsLive x → m.cells x = 0

namespace Cells

variable {capacity : Nat} {s : Cells}

theorem run_append_of_ok {s' : Cells} {xs : List Instr} (h : s.run capacity xs = .ok s')
    (ys : List Instr) : s.run capacity (xs ++ ys) = s'.run capacity ys := by
  rw [run_append, h]
  rfl

/-- The steps leave a value on top of a stack, or stop where there is none. They write no
variable. -/
def Computes (stack : List Cell) (store : UInt8 → Option Cell) (value : Option Cell)
    (result : Step Cells) : Prop :=
  match value with
  | some cell => ∃ s', result = .ok s' ∧ s'.stack = cell :: stack ∧ s'.store = store
  | none => ∃ offset s', result = .error (.divideByZero offset, s') ∧ s'.store = store

/-- What follows a computation goes on from its value. -/
theorem Computes.append {stack stack' : List Cell} {store : UInt8 → Option Cell}
    {value : Option Cell} {next : Cell → Option Cell} {xs ys : List Instr}
    (h : Computes stack store value (s.run capacity xs))
    (hnext : ∀ cell (s' : Cells), s'.stack = cell :: stack → s'.store = store →
      Computes stack' store (next cell) (s'.run capacity ys)) :
    Computes stack' store (value.bind next) (s.run capacity (xs ++ ys)) := by
  cases value with
  | none =>
      obtain ⟨offset, s', hrun, hstore⟩ := h
      refine ⟨offset, s', ?_, hstore⟩
      rw [run_append, hrun]
      rfl
  | some cell =>
      obtain ⟨s', hrun, hstack, hstore⟩ := h
      rw [run_append_of_ok hrun]
      exact hnext cell s' hstack hstore

end Cells

/-- The code of a term computes its value, if there is room for it. -/
theorem Term.WellTyped.computes_code {registry : Registry} {table : SymbolTable} {m : Memory}
    {capacity : Nat} {a : Term} {s : Cells} (h : table.DeclaredFrom registry)
    (hm : m.Agrees table s.store) (ha : a.WellTyped registry table)
    (hroom : Cell.width * (s.stack.length + a.height) ≤ capacity) :
    Cells.Computes s.stack s.store (a.eval m) (s.run capacity (a.code table)) := by
  induction a generalizing s with
  | constant value =>
      exact ⟨_, (Cells.run_singleton capacity s _).trans (Cells.push_of_le _ hroom), rfl, rfl⟩
  | name x =>
      obtain ⟨symbol, hget, rfl, -⟩ := h.exists_of_isLive ha
      refine ⟨_, (Cells.run_singleton capacity s _).trans (Cells.push_of_le _ hroom), ?_, rfl⟩
      rw [← hm.cells hget]
  | operation op left right ihl ihr =>
      obtain ⟨hleft, hright, -⟩ := ha
      simp only [height, Cell.width] at hroom
      rw [code, List.append_assoc, List.append_assoc]
      refine Cells.Computes.append (ihl hm hleft ?_) fun x s₁ hstack₁ hstore₁ => ?_
      · simp only [Cell.width]
        omega
      have hlen₁ : s₁.stack.length = s.stack.length + 1 := congrArg List.length hstack₁
      have hr := ihr (hstore₁ ▸ hm) hright (s := s₁) (by simp only [Cell.width]; omega)
      rw [hstore₁] at hr
      refine Cells.Computes.append hr fun y s₂ hstack₂ hstore₂ => ?_
      have hlen₂ : s₂.stack.length = s₁.stack.length + 1 := congrArg List.length hstack₂
      rw [hstack₁] at hstack₂
      have hpos := right.height_pos
      have hroom₂ : Cell.width * s₂.stack.length ≤ capacity := by
        simp only [Cell.width]
        omega
      obtain ⟨s₃, hrun₃, hstack₃, hstore₃⟩ := Cells.run_conversion (right.typeName table.typeOf)
        (left.typeName table.typeOf) hstack₂ hroom₂
      have hlen₃ : s₃.stack.length = s₂.stack.length := by
        rw [hstack₃, hstack₂]
        rfl
      rw [Cells.run_append_of_ok hrun₃, Cells.run_singleton, hm.types,
        Cells.act_instr op hstack₃ (hlen₃ ▸ hroom₂)]
      cases op.eval x (convert (right.typeName table.typeOf) (left.typeName table.typeOf) y) with
      | none => exact ⟨_, _, rfl, hstore₃.trans hstore₂⟩
      | some cell => exact ⟨_, rfl, rfl, hstore₃.trans hstore₂⟩

end StackScript
