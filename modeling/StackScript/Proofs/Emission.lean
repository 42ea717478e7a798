import StackScript.Emission
import StackScript.Proofs.Readers
import StackScript.Proofs.Reading
import StackScript.Proofs.Typing

/-! # Emission of typed statements

Compiling an expression succeeds exactly when the expression is a well-typed statement, and then
emits the code of that statement. -/

namespace StackScript

/-! ## Results -/

section Results

variable {ε ε' α β : Type}

theorem bind_eq_ok_iff {x : Except ε α} {f : α → Except ε β} {b : β} :
    x >>= f = .ok b ↔ ∃ a, x = .ok a ∧ f a = .ok b := by
  cases x <;> simp [bind, Except.bind]

@[simp] theorem mapError_ok (a : α) (f : ε → ε') : (Except.ok a).mapError f = .ok a := rfl

@[simp] theorem mapError_error (e : ε) (f : ε → ε') :
    (Except.error e : Except ε α).mapError f = .error (f e) := rfl

theorem mapError_eq_ok_iff {x : Except ε α} {f : ε → ε'} {a : α} :
    x.mapError f = .ok a ↔ x = .ok a := by
  cases x <;> simp

theorem toOption_eq_some_iff {x : Except ε α} {a : α} : x.toOption = some a ↔ x = .ok a := by
  cases x <;> simp [Except.toOption]

end Results

/-! ## Computations that emit -/

namespace Emit

variable {α β : Type}

@[simp] theorem run_fail (d : Diagnostic) (table : SymbolTable) :
    (fail d : Emit α).run table = ⟨.error d, table, []⟩ := rfl

@[simp] theorem run_instr (i : Instr) (table : SymbolTable) :
    (instr i).run table = ⟨.ok (), table, [i]⟩ := rfl

@[simp] theorem run_symbols (table : SymbolTable) :
    symbols.run table = ⟨.ok table, table, []⟩ := rfl

@[simp] theorem run_symbols_bind (next : SymbolTable → Emit β) (table : SymbolTable) :
    (symbols >>= next).run table = (next table).run table := rfl

/-- A sequence succeeds when both of its parts do, and emits the code of one behind the other. -/
theorem run_bind_eq_ok_iff {m : Emit α} {next : α → Emit β} {table table' : SymbolTable} {b : β}
    {code : List Instr} :
    (m >>= next).run table = ⟨.ok b, table', code⟩ ↔
      ∃ a middle c c', m.run table = ⟨.ok a, middle, c⟩ ∧
        (next a).run middle = ⟨.ok b, table', c'⟩ ∧ code = c ++ c' := by
  rw [run_bind]
  cases hm : m.run table with
  | mk result middle c =>
      cases result with
      | error d => simp
      | ok a =>
          cases hn : (next a).run middle with
          | mk result' last c' => simp [hn, and_assoc, eq_comm]

theorem run_declare_eq_ok_iff {name : String} {ty : Ty} {pos : Nat} {slot : UInt8}
    {table table' : SymbolTable} {code : List Instr} :
    (declare name ty pos).run table = ⟨.ok slot, table', code⟩ ↔
      table.declare name ty = .ok (slot, table') ∧ code = [] := by
  simp only [declare]
  cases table.declare name ty with
  | error cause => simp
  | ok declared =>
      obtain ⟨slot', declaredTable⟩ := declared
      simp [and_assoc, eq_comm]

/-- A conversion between registered types. -/
theorem run_cast_eq_ok_iff {registry : Registry} {source target : Ty} {pos : Nat}
    {table table' : SymbolTable} {u : Unit} {code : List Instr}
    (hs : registry.lookup? source.name = some source)
    (ht : registry.lookup? target.name = some target) :
    (cast source target pos).run table = ⟨.ok u, table', code⟩ ↔
      Convertible source.name target.name ∧ table' = table ∧
        code = conversion source.name target.name := by
  have heq : source = target ↔ source.name = target.name := by
    refine ⟨fun h => h ▸ rfl, fun h => ?_⟩
    rw [h, ht, Option.some.injEq] at hs
    exact hs.symm
  by_cases hname : source.name = target.name
  · simp [cast, heq.mpr hname, Convertible, conversion, eq_comm]
  · have hne : source ≠ target := fun h => hname (heq.mp h)
    by_cases hfloat : source.name = Ty.int32.name ∧ target.name = Ty.float.name
    · simp [cast, hne, Ty.castInstr?, hfloat, Convertible, conversion, eq_comm, Ty.int32, Ty.float]
    · by_cases hint : source.name = Ty.float.name ∧ target.name = Ty.int32.name
      · simp [cast, hne, Ty.castInstr?, hint, Convertible, conversion, eq_comm, Ty.int32, Ty.float]
      · simp [cast, hne, Ty.castInstr?, hfloat, hint, Convertible, hname]

end Emit

/-! ## Declarations -/

/-- A declaration is read from a type and a name and nothing else. -/
theorem Declaration.read_reader_eq_ok_iff {tokens : List Token} {decl : Declaration} :
    (reader.read (Cursor.ofTokens tokens)).1 = .ok decl ↔
      tokens = [decl.ty, decl.name] ∧ decl.ty.kind = .identifier ∧
        decl.name.kind = .identifier := by
  simp only [reader, Reader.fst_read_eq_ok_iff, Reader.read_bind_eq_ok_iff, read_parts_eq_ok_iff,
    Reader.read_finish_eq_ok_iff, Reader.read_pure]
  constructor
  · rintro ⟨_, _, _, ⟨hnamed, hbefore⟩, -, _, ⟨hend, rfl⟩, hpure⟩
    cases hpure
    exact ⟨((Cursor.ofTokens_eq_before_iff hend).mp hbefore).1, hnamed⟩
  · rintro ⟨rfl, hnamed⟩
    exact ⟨_, decl, _, ⟨hnamed, (Cursor.ofTokens_eq_before_iff rfl).mpr ⟨rfl, rfl⟩⟩, (), _,
      ⟨rfl, rfl⟩, rfl⟩

theorem declared?_eq_some_iff_exists {tokens : List Token} {d : String × String} :
    declared? tokens = some d ↔ ∃ decl : Declaration,
      (Declaration.reader.read (Cursor.ofTokens tokens)).1 = .ok decl ∧
        (decl.ty.text, decl.name.text) = d := by
  obtain ⟨ty, ident⟩ := d
  simp only [Declaration.read_reader_eq_ok_iff, declared?_eq_some_iff]
  constructor
  · rintro ⟨t, n, rfl, ht, hn, rfl, rfl⟩
    exact ⟨⟨t, n⟩, ⟨rfl, ht, hn⟩, rfl⟩
  · rintro ⟨decl, ⟨rfl, ht, hn⟩, heq⟩
    cases heq
    exact ⟨decl.ty, decl.name, rfl, ht, hn, rfl, rfl⟩

section Declarations

variable {registry : Registry} {table table' : SymbolTable} {slot : UInt8} {ty : Ty}
  {code : List Instr}

/-- A variable is declared by two tokens that can declare one, and emits no code. -/
theorem run_declareVariable_eq_ok_iff (h : table.DeclaredFrom registry) {tokens : List Token} :
    (declareVariable registry tokens).run table = ⟨.ok (slot, ty), table', code⟩ ↔
      ∃ d, declared? tokens = some d ∧ Declarable registry table d.1 d.2 ∧
        registry.lookup? d.1 = some ty ∧ table' = table.extend registry d.1 d.2 ∧
        slot = table'.slotOf d.2 ∧ code = [] := by
  simp only [declared?_eq_some_iff_exists]
  constructor
  · intro hrun
    unfold declareVariable at hrun
    split at hrun
    · simp at hrun
    · rename_i first rest
      split at hrun
      · rename_i hlookup
        rw [Emit.run_bind, Emit.run_symbols] at hrun
        simp only at hrun
        split at hrun <;> simp at hrun
      · rename_i t hlookup
        split at hrun
        · simp at hrun
        · rename_i decl hdecl
          obtain ⟨htokens, -, -⟩ := Declaration.read_reader_eq_ok_iff.mp hdecl
          obtain ⟨rfl, -⟩ := List.cons.inj htokens
          split at hrun
          · simp at hrun
          · rename_i hvoid
            simp only [Emit.run_bind_eq_ok_iff, Emit.run_declare_eq_ok_iff, Emit.run_pure] at hrun
            obtain ⟨slot', middle, _, _, ⟨hdeclare, rfl⟩, hpure, rfl⟩ := hrun
            cases hpure
            obtain ⟨hd, rfl, rfl⟩ := h.declarable_of_declare hlookup
              (Bool.eq_false_iff.mpr hvoid) hdeclare
            exact ⟨(decl.ty.text, decl.name.text), ⟨decl, hdecl, rfl⟩, hd, hlookup, rfl, rfl, rfl⟩
  · rintro ⟨d, ⟨decl, hdecl, rfl⟩, hd, hlookup, rfl, rfl, rfl⟩
    obtain ⟨htokens, -, -⟩ := Declaration.read_reader_eq_ok_iff.mp hdecl
    obtain ⟨t, ht, hvoid, hdeclare, -⟩ := h.extend hd
    rw [hlookup, Option.some.injEq] at ht
    subst ht
    rw [htokens] at hdecl
    simp [htokens, declareVariable, hlookup, hdecl, hvoid, Emit.declare, hdeclare]

/-- An assignment finds the place of its value. -/
theorem Target.run_resolve_eq_ok_iff (h : table.DeclaredFrom registry) {target : Target} :
    (target.resolve registry).run table = ⟨.ok (slot, ty), table', code⟩ ↔
      ∃ p, target.place? = some p ∧ p.WellTyped registry table ∧
        registry.lookup? (table'.typeOf p.ident) = some ty ∧ table' = p.after registry table ∧
        slot = table'.slotOf p.ident ∧ code = [] := by
  cases target with
  | name token =>
      simp only [resolve, place?, Option.some.injEq, exists_eq_left', Place.WellTyped,
        Place.after, Place.ident]
      rw [Emit.run_symbols_bind]
      cases hlookup : table.lookup? token.text with
      | none =>
          simp only [SymbolTable.IsLive, hlookup, Option.isSome_none, Bool.false_eq_true,
            false_and, iff_false]
          split <;> simp
      | some found =>
          obtain ⟨slot', symbol⟩ := found
          obtain ⟨hlive, rfl, hty⟩ := h.registered_of_lookup? hlookup
          simp only [Emit.run_pure, Emission.mk.injEq, Except.ok.injEq, Prod.mk.injEq]
          constructor
          · rintro ⟨⟨rfl, rfl⟩, rfl, rfl⟩
            exact ⟨hlive, hty, rfl, rfl, rfl⟩
          · rintro ⟨-, hty', rfl, rfl, rfl⟩
            rw [hty, Option.some.injEq] at hty'
            exact ⟨⟨rfl, hty'⟩, rfl, rfl⟩
  | declaration tokens =>
      simp only [resolve, place?, run_declareVariable_eq_ok_iff h, Option.map_eq_some_iff]
      constructor
      · rintro ⟨d, hd, hdeclarable, hty, rfl, rfl, rfl⟩
        refine ⟨.declaration d.1 d.2, ⟨d, hd, rfl⟩, hdeclarable, ?_, rfl, rfl, rfl⟩
        simpa only [Place.ident, h.typeOf_extend hdeclarable] using hty
      · rintro ⟨p, ⟨d, hd, rfl⟩, hdeclarable, hty, rfl, rfl, rfl⟩
        refine ⟨d, hd, hdeclarable, ?_, rfl, rfl, rfl⟩
        simpa only [Place.ident, Place.after, h.typeOf_extend hdeclarable] using hty

end Declarations

/-! ## Terms -/

section Terms

variable {registry : Registry} {table table' : SymbolTable} {v : Value} {code : List Instr}

theorem run_loadVariable_eq_ok_iff (h : table.DeclaredFrom registry) {token : Token} :
    (loadVariable registry token).run table = ⟨.ok v, table', code⟩ ↔
      (Term.name token.text).WellTyped registry table ∧
        v = (Term.name token.text).result registry table ∧ table' = table ∧
        code = (Term.name token.text).code table := by
  rw [loadVariable, Emit.run_symbols_bind]
  cases hlookup : table.lookup? token.text with
  | none =>
      simp only [Term.WellTyped, SymbolTable.IsLive, hlookup, Option.isSome_none,
        Bool.false_eq_true, false_and, iff_false]
      split <;> simp
  | some found =>
      obtain ⟨slot, symbol⟩ := found
      obtain ⟨hlive, rfl, hty⟩ := h.registered_of_lookup? hlookup
      simp [Term.WellTyped, hlive, hty, Term.result, Term.typeName, Term.slot?, Term.code, eq_comm]

/-- The conversion of a term to a registered type. -/
theorem run_cast_result_eq_ok_iff (h : table.DeclaredFrom registry) {a : Term}
    (ha : a.WellTyped registry table) {target : String} {ty : Ty}
    (ht : registry.lookup? target = some ty) (pos : Nat) :
    (Emit.cast (a.result registry table).ty ty pos).run table = ⟨.ok (), table', code⟩ ↔
      Convertible (a.typeName table.typeOf) target ∧ table' = table ∧
        code = conversion (a.typeName table.typeOf) target := by
  obtain ⟨haty, haname, -⟩ := ha.result h
  have htname := Registry.name_of_lookup? ht
  rw [Emit.run_cast_eq_ok_iff (haname ▸ haty) (htname ▸ ht), haname, htname]

namespace Expression

theorem run_emit_literal_eq_ok_iff {value : Cell} {pos : Nat} :
    (emit registry (.literal value pos)).run table = ⟨.ok v, table', code⟩ ↔
      (Term.constant value.toInt).WellTyped registry table ∧
        v = (Term.constant value.toInt).result registry table ∧ table' = table ∧
        code = (Term.constant value.toInt).code table := by
  -- Every cell is in the range of the constants.
  have hrange : -2147483648 ≤ value.toInt ∧ value.toInt ≤ 2147483647 :=
    ⟨BitVec.le_toInt value, Int.le_of_lt_add_one BitVec.toInt_lt⟩
  rw [emit]
  cases hlookup : registry.lookup? Ty.int32.name with
  | none => simp [Term.WellTyped, Registry.isRegistered, hlookup]
  | some ty =>
      simp [Term.WellTyped, Registry.isRegistered, hrange, hlookup, Term.result, Term.typeName,
        Term.slot?, Term.code, eq_comm]

theorem run_emit_declaration_eq_ok_iff {tokens : List Token} :
    (emit registry (.declaration tokens)).run table = ⟨.ok v, table', code⟩ ↔
      ∃ slot ty, (declareVariable registry tokens).run table = ⟨.ok (slot, ty), table', code⟩ ∧
        v = ⟨Ty.void, some slot⟩ := by
  rw [emit, Emit.run_bind_eq_ok_iff]
  constructor
  · rintro ⟨⟨slot, ty⟩, middle, c, c', hdeclare, hpure, rfl⟩
    cases hpure
    exact ⟨slot, ty, by simpa using hdeclare, rfl⟩
  · rintro ⟨slot, ty, hdeclare, rfl⟩
    exact ⟨(slot, ty), table', code, [], hdeclare, rfl, by simp⟩

/-- An assignment finds its place first, then computes a value, converts it and stores it. -/
theorem run_emit_assignment_eq_ok_iff {target : Target} {value : Expression} {pos : Nat} :
    (emit registry (.assignment target value pos)).run table = ⟨.ok v, table', code⟩ ↔
      ∃ slot ty middle c result last c' cast,
        (target.resolve registry).run table = ⟨.ok (slot, ty), middle, c⟩ ∧
        (value.emit registry).run middle = ⟨.ok result, last, c'⟩ ∧ result.ty.isVoid = false ∧
        (Emit.cast result.ty ty pos).run last = ⟨.ok (), table', cast⟩ ∧
        v = ⟨Ty.void, some slot⟩ ∧ code = c ++ c' ++ cast ++ [.store slot] := by
  rw [emit, Emit.run_bind_eq_ok_iff]
  constructor
  · rintro ⟨⟨slot, ty⟩, middle, c, _, hresolve, hrest, rfl⟩
    obtain ⟨result, last, c', _, hvalue, hstore, rfl⟩ := Emit.run_bind_eq_ok_iff.mp hrest
    split at hstore
    · cases hstore
    · rename_i hvoid
      obtain ⟨⟨⟩, final, cast, _, hcast, hpure, rfl⟩ := Emit.run_bind_eq_ok_iff.mp hstore
      cases hpure
      exact ⟨slot, ty, middle, c, result, last, c', cast, hresolve, hvalue,
        Bool.eq_false_iff.mpr hvoid, hcast, rfl, by simp⟩
  · rintro ⟨slot, ty, middle, c, result, last, c', cast, hresolve, hvalue, hvoid, hcast, rfl, rfl⟩
    refine ⟨(slot, ty), middle, c, c' ++ cast ++ [.store slot], hresolve, ?_, by simp⟩
    refine Emit.run_bind_eq_ok_iff.mpr
      ⟨result, last, c', cast ++ [.store slot], hvalue, ?_, by simp⟩
    rw [if_neg (by simp [hvoid])]
    exact Emit.run_bind_eq_ok_iff.mpr ⟨(), table', cast, [.store slot], hcast, rfl, rfl⟩

/-- An operation computes its operands from left to right and converts the right one. -/
theorem run_emit_arithmetic_eq_ok_iff {op : Arithmetic} {pos : Nat} {left right : Expression} :
    (emit registry (.arithmetic op pos left right)).run table = ⟨.ok v, table', code⟩ ↔
      ∃ lhs middle c rhs last c' cast,
        (left.emit registry).run table = ⟨.ok lhs, middle, c⟩ ∧ lhs.ty.isVoid = false ∧
        (right.emit registry).run middle = ⟨.ok rhs, last, c'⟩ ∧ rhs.ty.isVoid = false ∧
        (Emit.cast rhs.ty lhs.ty pos).run last = ⟨.ok (), table', cast⟩ ∧
        lhs.ty.name = Ty.int32.name ∧ v = ⟨lhs.ty, none⟩ ∧
        code = c ++ c' ++ cast ++ [op.instr] := by
  rw [emit, Emit.run_bind_eq_ok_iff]
  constructor
  · rintro ⟨lhs, middle, c, _, hleft, hrest, rfl⟩
    split at hrest
    · cases hrest
    · rename_i hlvoid
      obtain ⟨rhs, last, c', _, hright, hconvert, rfl⟩ := Emit.run_bind_eq_ok_iff.mp hrest
      split at hconvert
      · cases hconvert
      · rename_i hrvoid
        obtain ⟨⟨⟩, final, cast, _, hcast, hinstr, rfl⟩ := Emit.run_bind_eq_ok_iff.mp hconvert
        split at hinstr
        · rename_i hint
          cases hinstr
          exact ⟨lhs, middle, c, rhs, last, c', cast, hleft, Bool.eq_false_iff.mpr hlvoid, hright,
            Bool.eq_false_iff.mpr hrvoid, hcast, hint, rfl, by simp⟩
        · cases hinstr
  · rintro ⟨lhs, middle, c, rhs, last, c', cast, hleft, hlvoid, hright, hrvoid, hcast, hint, rfl,
      rfl⟩
    refine ⟨lhs, middle, c, c' ++ cast ++ [op.instr], hleft, ?_, by simp⟩
    rw [if_neg (by simp [hlvoid])]
    refine Emit.run_bind_eq_ok_iff.mpr ⟨rhs, last, c', cast ++ [op.instr], hright, ?_, by simp⟩
    rw [if_neg (by simp [hrvoid])]
    refine Emit.run_bind_eq_ok_iff.mpr ⟨(), table', cast, [op.instr], hcast, ?_, rfl⟩
    rw [if_pos hint]
    rfl

/-- Expressions that leave a value are the well-typed terms, and emit their code. -/
theorem run_emit_term_iff (h : table.DeclaredFrom registry) {e : Expression} :
    (e.emit registry).run table = ⟨.ok v, table', code⟩ ∧ v.ty.isVoid = false ↔
      ∃ a, e.term? = some a ∧ a.WellTyped registry table ∧ v = a.result registry table ∧
        table' = table ∧ code = a.code table := by
  induction e generalizing v table' code with
  | literal value pos =>
      simp only [run_emit_literal_eq_ok_iff, term?, Option.some.injEq, exists_eq_left']
      constructor
      · rintro ⟨hterm, -⟩
        exact hterm
      · rintro ⟨hwell, rfl, rfl, rfl⟩
        exact ⟨⟨hwell, rfl, rfl, rfl⟩, (hwell.result h).2.2⟩
  | name token =>
      simp only [emit, run_loadVariable_eq_ok_iff h, term?, Option.some.injEq, exists_eq_left']
      constructor
      · rintro ⟨hterm, -⟩
        exact hterm
      · rintro ⟨hwell, rfl, rfl, rfl⟩
        exact ⟨⟨hwell, rfl, rfl, rfl⟩, (hwell.result h).2.2⟩
  | declaration tokens =>
      simp only [run_emit_declaration_eq_ok_iff, term?, reduceCtorEq, false_and, exists_false,
        iff_false]
      rintro ⟨⟨slot, ty, -, rfl⟩, hvoid⟩
      cases hvoid
  | assignment target value pos ih =>
      simp only [run_emit_assignment_eq_ok_iff, term?, reduceCtorEq, false_and, exists_false,
        iff_false]
      rintro ⟨⟨_, _, _, _, _, _, _, _, -, -, -, -, rfl, -⟩, hvoid⟩
      cases hvoid
  | arithmetic op pos left right ihl ihr =>
      rw [run_emit_arithmetic_eq_ok_iff]
      constructor
      · rintro ⟨⟨lhs, middle, c, rhs, last, c', cast, hleft, hlvoid, hright, hrvoid, hcast, hint,
          rfl, rfl⟩, -⟩
        obtain ⟨a, ha, haw, rfl, rfl, rfl⟩ := ihl.mp ⟨hleft, hlvoid⟩
        obtain ⟨b, hb, hbw, rfl, rfl, rfl⟩ := ihr.mp ⟨hright, hrvoid⟩
        obtain ⟨hconv, rfl, rfl⟩ :=
          (run_cast_result_eq_ok_iff h hbw (haw.result h).1 pos).mp hcast
        rw [(haw.result h).2.1] at hint
        rw [hint, convertible_int32_iff] at hconv
        exact ⟨.operation op a b, by simp [term?, ha, hb], ⟨haw, hbw, hint, hconv⟩, rfl, rfl, rfl⟩
      · rintro ⟨term, hterm, hwell, rfl, rfl, rfl⟩
        simp only [term?, Option.bind_eq_bind, Option.bind_eq_some_iff, Option.pure_def,
          Option.some.injEq] at hterm
        obtain ⟨a, ha, b, hb, rfl⟩ := hterm
        obtain ⟨haw, hbw, hint, hconv⟩ := hwell
        obtain ⟨hleft, hlvoid⟩ := ihl.mpr ⟨a, ha, haw, rfl, rfl, rfl⟩
        obtain ⟨hright, hrvoid⟩ := ihr.mpr ⟨b, hb, hbw, rfl, rfl, rfl⟩
        have hcast := (run_cast_result_eq_ok_iff h hbw (haw.result h).1 pos).mpr
          ⟨hint ▸ convertible_int32_iff.mpr hconv, rfl, rfl⟩
        exact ⟨⟨_, _, _, _, _, _, _, hleft, hlvoid, hright, hrvoid, hcast,
          (haw.result h).2.1.trans hint, rfl, rfl⟩, hlvoid⟩
  | malformed error => simp [emit, term?]

/-! ## Statements -/

/-- Apart from declarations and assignments, what compiles leaves a value. -/
theorem run_emit_value_iff (h : table.DeclaredFrom registry) {e : Expression}
    (hst : e.statement? = e.term?.map .value)
    (hvoid : (e.emit registry).run table = ⟨.ok v, table', code⟩ → v.ty.isVoid = false) :
    (e.emit registry).run table = ⟨.ok v, table', code⟩ ↔
      ∃ st, e.statement? = some st ∧ st.WellTyped registry table ∧ v = st.result registry table ∧
        table' = st.after registry table ∧ code = st.code registry table := by
  simp only [hst, Option.map_eq_some_iff]
  constructor
  · intro hrun
    obtain ⟨a, ha, hwell⟩ := (run_emit_term_iff h).mp ⟨hrun, hvoid hrun⟩
    exact ⟨.value a, ⟨a, ha, rfl⟩, hwell⟩
  · rintro ⟨_, ⟨a, ha, rfl⟩, hwell⟩
    exact ((run_emit_term_iff h).mpr ⟨a, ha, hwell⟩).1

/-- Expressions that compile are the well-typed statements, and emit their code. -/
theorem run_emit_eq_ok_iff (h : table.DeclaredFrom registry) {e : Expression} :
    (e.emit registry).run table = ⟨.ok v, table', code⟩ ↔
      ∃ st, e.statement? = some st ∧ st.WellTyped registry table ∧ v = st.result registry table ∧
        table' = st.after registry table ∧ code = st.code registry table := by
  cases e with
  | literal value pos =>
      refine run_emit_value_iff h rfl fun hrun => ?_
      obtain ⟨hwell, rfl, -⟩ := run_emit_literal_eq_ok_iff.mp hrun
      exact (hwell.result h).2.2
  | name token =>
      refine run_emit_value_iff h rfl fun hrun => ?_
      obtain ⟨hwell, rfl, -⟩ := (run_loadVariable_eq_ok_iff h).mp hrun
      exact (hwell.result h).2.2
  | arithmetic op pos left right =>
      refine run_emit_value_iff h rfl fun hrun => ?_
      obtain ⟨lhs, _, _, _, _, _, _, -, hvoid, -, -, -, -, rfl, -⟩ :=
        run_emit_arithmetic_eq_ok_iff.mp hrun
      exact hvoid
  | malformed error =>
      refine run_emit_value_iff h rfl fun hrun => ?_
      cases hrun
  | declaration tokens =>
      simp only [run_emit_declaration_eq_ok_iff, run_declareVariable_eq_ok_iff h, statement?,
        Option.map_eq_some_iff]
      constructor
      · rintro ⟨slot, ty, ⟨d, hd, hdeclarable, -, rfl, rfl, rfl⟩, rfl⟩
        exact ⟨_, ⟨d, hd, rfl⟩, hdeclarable, rfl, rfl, rfl⟩
      · rintro ⟨_, ⟨d, hd, rfl⟩, hdeclarable, rfl, rfl, rfl⟩
        obtain ⟨ty, hty, -⟩ := h.extend hdeclarable
        exact ⟨_, ty, ⟨d, hd, hdeclarable, hty, rfl, rfl, rfl⟩, rfl⟩
  | assignment target value pos =>
      simp only [run_emit_assignment_eq_ok_iff, Target.run_resolve_eq_ok_iff h, statement?,
        Option.bind_eq_bind, Option.bind_eq_some_iff, Option.pure_def, Option.some.injEq]
      constructor
      · rintro ⟨slot, ty, middle, _, result, last, c', cast, ⟨p, hp, hplace, hty, rfl, rfl, rfl⟩,
          hvalue, hvoid, hcast, rfl, rfl⟩
        have hafter := hplace.declaredFrom h
        obtain ⟨a, ha, haw, rfl, rfl, rfl⟩ := (run_emit_term_iff hafter).mp ⟨hvalue, hvoid⟩
        obtain ⟨hconv, rfl, rfl⟩ := (run_cast_result_eq_ok_iff hafter haw hty pos).mp hcast
        exact ⟨_, ⟨p, hp, a, ha, rfl⟩, ⟨hplace, haw, hconv⟩, rfl, rfl, rfl⟩
      · rintro ⟨_, ⟨p, hp, a, ha, rfl⟩, ⟨hplace, haw, hconv⟩, rfl, rfl, rfl⟩
        have hafter := hplace.declaredFrom h
        obtain ⟨symbol, -, -, -, hty, -⟩ := hafter.exists_of_isLive (hplace.isLive_ident h)
        obtain ⟨hvalue, hvoid⟩ := (run_emit_term_iff hafter).mpr ⟨a, ha, haw, rfl, rfl, rfl⟩
        have hcast := (run_cast_result_eq_ok_iff hafter haw hty pos).mpr ⟨hconv, rfl, rfl⟩
        exact ⟨_, symbol.ty, _, _, _, _, _, _, ⟨p, hp, hplace, hty, rfl, rfl, rfl⟩, hvalue, hvoid,
          hcast, rfl, rfl⟩

end Expression

end Terms

end StackScript
