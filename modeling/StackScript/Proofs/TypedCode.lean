import StackScript.Proofs.Script

/-! # Typed code

Cells carry no type, but the code of a well-typed program can be run over the types of the cells
alone. -/

namespace StackScript

namespace Instr

/-- The slot that an instruction names. -/
def slot? : Instr → Option UInt8
  | store slot | load slot => some slot
  | _ => none

/-- The types of the cells that an instruction takes from the stack, the topmost first, and of those
that it leaves in their place. A slot has the type that its variable was declared with. -/
def signature? (table : SymbolTable) : Instr → Option (List String × List String)
  | constInt _ => some ([], [Ty.int32.name])
  | load slot => (table.get? slot).map fun symbol => ([], [symbol.ty.name])
  | store slot => (table.get? slot).map fun symbol => ([symbol.ty.name], [])
  | add | sub | mul | div | mod => some ([Ty.int32.name, Ty.int32.name], [Ty.int32.name])
  | intToFloat => some ([Ty.int32.name], [Ty.float.name])
  | floatToInt => some ([Ty.float.name], [Ty.int32.name])

/-- The types on the stack behind an instruction; none if it takes a cell at another type than the
one on the stack. -/
def typed (table : SymbolTable) (i : Instr) (types : List String) : Option (List String) :=
  (i.signature? table).bind fun (takes, leaves) =>
    if takes <+: types then some (leaves ++ types.drop takes.length) else none

theorem typed_append {table : SymbolTable} {i : Instr} {takes leaves : List String}
    (h : i.signature? table = some (takes, leaves)) (types : List String) :
    i.typed table (takes ++ types) = some (leaves ++ types) := by
  simp [typed, h]

end Instr

/-- Run code over types. -/
def typedRun (table : SymbolTable) (code : List Instr) (types : List String) :
    Option (List String) :=
  code.foldlM (fun types i => i.typed table types) types

section

variable {registry : Registry} {table : SymbolTable} {types types' : List String}

theorem typedRun_append (xs ys : List Instr) :
    typedRun table (xs ++ ys) types = (typedRun table xs types).bind (typedRun table ys) :=
  List.foldlM_append

theorem typedRun_cons_eq_some_iff {i : Instr} {code : List Instr} :
    typedRun table (i :: code) types = some types' ↔
      ∃ middle, i.typed table types = some middle ∧ typedRun table code middle = some types' := by
  rw [typedRun, List.foldlM_cons]
  exact Option.bind_eq_some_iff

@[simp] theorem typedRun_nil : typedRun table [] types = some types := rfl

/-! ## Terms -/

theorem typedRun_singleton {i : Instr} (takes leaves : List String)
    (h : i.signature? table = some (takes, leaves)) :
    typedRun table [i] (takes ++ types) = some (leaves ++ types) := by
  rw [typedRun, List.foldlM_cons, Instr.typed_append h]
  rfl

theorem typedRun_conversion {source target : String} (h : Convertible source target) :
    typedRun table (conversion source target) (source :: types) = some (target :: types) := by
  have hne : Ty.int32.name ≠ Ty.float.name := by decide
  rcases h with rfl | ⟨rfl, rfl⟩ | ⟨rfl, rfl⟩
  · rw [conversion, if_pos rfl, typedRun_nil]
  · rw [conversion, if_neg hne, if_pos rfl]
    exact typedRun_singleton [_] [_] rfl
  · rw [conversion, if_neg hne.symm, if_neg hne]
    exact typedRun_singleton [_] [_] rfl

theorem signature?_instr (op : Arithmetic) :
    op.instr.signature? table = some ([Ty.int32.name, Ty.int32.name], [Ty.int32.name]) := by
  cases op <;> rfl

/-- The code of a term leaves its type on top of those that were there. -/
theorem Term.WellTyped.typedRun_code (h : table.DeclaredFrom registry) {a : Term}
    (ha : a.WellTyped registry table) :
    typedRun table (a.code table) types = some (a.typeName table.typeOf :: types) := by
  induction a generalizing types with
  | constant value => exact typedRun_singleton [] [_] rfl
  | name x =>
      obtain ⟨symbol, hget, -, hname, -⟩ := h.exists_of_isLive ha
      exact typedRun_singleton [] [_] (by simp [Instr.signature?, hget, hname, typeName])
  | operation op left right ihl ihr =>
      obtain ⟨hleft, hright, hint, hconv⟩ := ha
      have hconversion : Convertible (right.typeName table.typeOf) (left.typeName table.typeOf) :=
        hint ▸ convertible_int32_iff.mpr hconv
      rw [code, typedRun_append, typedRun_append, typedRun_append, ihl hleft, Option.bind_some,
        ihr hright, Option.bind_some, typedRun_conversion hconversion, Option.bind_some, typeName,
        hint]
      exact typedRun_singleton [_, _] [_] (signature?_instr op)

/-! ## Statements -/

/-- A statement that leaves no value is typed over the table behind it. -/
theorem Statement.WellTyped.typedRun_code (h : table.DeclaredFrom registry) {st : Statement}
    (hst : st.WellTyped registry table) (hvalue : st.isValue = false) :
    typedRun (st.after registry table) (st.code registry table) types = some types := by
  cases st with
  | value a => cases hvalue
  | declaration ty x => rfl
  | assignment p a =>
      obtain ⟨hp, ha, hconv⟩ := hst
      have hafter := hp.declaredFrom h
      obtain ⟨symbol, hget, -, hname, -⟩ := hafter.exists_of_isLive (hp.isLive_ident h)
      rw [code, after, typedRun_append, typedRun_append, ha.typedRun_code hafter, Option.bind_some,
        typedRun_conversion hconv, Option.bind_some]
      exact typedRun_singleton [_] [] (by simp [Instr.signature?, hget, hname])

end

/-! ## Programs -/

/-- Every variable of the one table is in the same slot of the other. -/
def SymbolTable.Extends (table' table : SymbolTable) : Prop :=
  ∀ ⦃slot symbol⦄, table.get? slot = some symbol → table'.get? slot = some symbol

section

variable {registry : Registry} {table table' : SymbolTable}

theorem SymbolTable.DeclaredFrom.extends_extend (h : table.DeclaredFrom registry) {ty x : String}
    (hd : Declarable registry table ty x) : (table.extend registry ty x).Extends table := by
  obtain ⟨t, -, -, hdeclare, -⟩ := h.extend hd
  exact fun _ _ => (declares_of_declare h.wellFormed.bounded hdeclare).get?_of_some

theorem Statement.WellTyped.extends_after (h : table.DeclaredFrom registry) {st : Statement}
    (hst : st.WellTyped registry table) : (st.after registry table).Extends table := by
  cases st with
  | value a => exact fun _ _ hget => hget
  | declaration ty x => exact h.extends_extend hst
  | assignment p a =>
      cases p with
      | name x => exact fun _ _ hget => hget
      | declaration ty x => exact h.extends_extend hst.1

theorem Program.WellTyped.extends_after (h : table.DeclaredFrom registry)
    {program : List Statement} (hp : WellTyped registry table program) :
    (after registry table program).Extends table := by
  induction program generalizing table with
  | nil => exact fun _ _ hget => hget
  | cons st program ih =>
      intro slot symbol hget
      exact ih (hp.1.declaredFrom h) hp.2.2 (hp.1.extends_after h hget)

theorem Instr.signature?_of_extends (h : table'.Extends table) {i : Instr}
    {types : List String × List String} (hi : i.signature? table = some types) :
    i.signature? table' = some types := by
  cases i with
  | store slot | load slot =>
      obtain ⟨symbol, hget, rfl⟩ := Option.map_eq_some_iff.mp hi
      simp [signature?, h hget]
  | _ => exact hi

/-- Code stays typed when more variables are declared. -/
theorem typedRun_of_extends (h : table'.Extends table) {code : List Instr}
    {types types' : List String} (hrun : typedRun table code types = some types') :
    typedRun table' code types = some types' := by
  induction code generalizing types with
  | nil => exact hrun
  | cons i code ih =>
      obtain ⟨middle, hstep, hrest⟩ := typedRun_cons_eq_some_iff.mp hrun
      obtain ⟨effect, heffect, hif⟩ := Option.bind_eq_some_iff.mp hstep
      refine typedRun_cons_eq_some_iff.mpr ⟨middle, ?_, ih hrest⟩
      exact Option.bind_eq_some_iff.mpr ⟨effect, Instr.signature?_of_extends h heffect, hif⟩

/-- Typed code names the slots of variables only. -/
theorem exists_get?_of_typedRun {code : List Instr} {types types' : List String}
    (hrun : typedRun table code types = some types') {i : Instr} (hi : i ∈ code) {slot : UInt8}
    (hslot : i.slot? = some slot) : ∃ symbol, table.get? slot = some symbol := by
  induction code generalizing types with
  | nil => cases hi
  | cons j code ih =>
      obtain ⟨middle, hstep, hrest⟩ := typedRun_cons_eq_some_iff.mp hrun
      rcases List.mem_cons.mp hi with rfl | hi
      · obtain ⟨effect, heffect, -⟩ := Option.bind_eq_some_iff.mp hstep
        cases i with
        | store s | load s =>
            cases hslot
            obtain ⟨symbol, hget, -⟩ := Option.map_eq_some_iff.mp heffect
            exact ⟨symbol, hget⟩
        | _ => cases hslot
      · exact ih hrest hi

/-- The code of a program is typed over the table behind it. -/
theorem Program.WellTyped.typedRun_code (h : table.DeclaredFrom registry)
    {program : List Statement} (hp : WellTyped registry table program) {types : List String} :
    typedRun (after registry table program) (code registry table program) types = some types := by
  induction program generalizing table with
  | nil => rfl
  | cons st program ih =>
      obtain ⟨hst, hvalue, hrest⟩ := hp
      have hafter := hst.declaredFrom h
      rw [code, typedRun_append, after]
      rw [typedRun_of_extends (hrest.extends_after hafter) (hst.typedRun_code h hvalue)]
      exact ih hafter hrest

/-- The code of a script takes every cell at the type at which it was made. Its slots are those of
live variables, none of which is void. -/
theorem compile_typedRun_eq_nil {source : String} {c : Compilation}
    (hc : compile registry source = .ok c) :
    typedRun c.symbols c.instrs [] = some [] ∧
      (∀ i ∈ c.instrs, ∀ slot, i.slot? = some slot → ∃ symbol, (slot, symbol) ∈ c.symbols.live) ∧
      ∀ slot symbol, (slot, symbol) ∈ c.symbols.live → symbol.ty.name ≠ Ty.void.name := by
  obtain ⟨statements, program, -, -, hprogram, rfl, -, hsymbols, hcode⟩ :=
    Context.compile_eq_ok (Prod.ext hc rfl)
  have hdeclared := hprogram.declaredFrom .empty
  have htyped : typedRun (Program.after registry {} program) (Program.code registry {} program) [] =
      some [] := hprogram.typedRun_code .empty
  simp only [Context.compilation, hsymbols, hcode]
  refine ⟨htyped, ?_, ?_⟩
  · intro i hi slot hslot
    obtain ⟨symbol, hget⟩ := exists_get?_of_typedRun htyped hi hslot
    exact ⟨symbol, (SymbolTable.mem_live_iff hdeclared.wellFormed.bounded).mpr hget⟩
  · intro slot symbol hmem
    have hget := (SymbolTable.mem_live_iff hdeclared.wellFormed.bounded).mp hmem
    exact Ty.isVoid_eq_false_iff.mp (hdeclared.registered hget).2

/-- Conversions of a right operand, of an assigned value, and of a variable in its own value. -/
theorem compile_typedRun_conversions :
    ∃ c, compile .builtins "float y = (2 + 3) * y; int32 x = y;" = .ok c ∧
      c.instrs = [.constInt 2, .constInt 3, .add, .load 0, .floatToInt, .mul, .intToFloat, .store 0,
        .load 0, .floatToInt, .store 1] ∧
      typedRun c.symbols c.instrs [] = some [] := by
  have hc : compile .builtins "float y = (2 + 3) * y; int32 x = y;" =
      .ok ((compile .builtins "float y = (2 + 3) * y; int32 x = y;").toOption.getD ⟨[], {}, []⟩) :=
    toOption_eq_some_iff.mp (by decide +kernel)
  exact ⟨_, hc, by decide +kernel, (compile_typedRun_eq_nil hc).1⟩

end

end StackScript
