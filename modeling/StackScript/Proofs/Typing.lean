import StackScript.Emission
import StackScript.Proofs.Grammar
import StackScript.Proofs.Slots

/-! # Typed statements and their code

What it takes for a statement of the grammar to be well typed over a registry and a table of
variables, and the postfix code that such a statement has. Types are known by their names. -/

namespace StackScript

/-! ## Variables by name -/

namespace SymbolTable

def IsLive (table : SymbolTable) (name : String) : Prop := (table.lookup? name).isSome

/-- The type of a live variable. -/
def typeOf (table : SymbolTable) (name : String) : String :=
  ((table.lookup? name).map fun found => found.2.ty.name).getD ""

/-- The slot of a live variable. -/
def slotOf (table : SymbolTable) (name : String) : UInt8 :=
  ((table.lookup? name).map Prod.fst).getD 0

/-- The table with one more variable. Where it cannot be declared, nothing changes. -/
def extend (table : SymbolTable) (registry : Registry) (ty name : String) : SymbolTable :=
  match registry.lookup? ty with
  | none => table
  | some t =>
      match table.declare name t with
      | .ok (_, table') => table'
      | .error _ => table

end SymbolTable

/-- A variable can be declared with a registered type other than void, under a name that is not
live, as long as there is a slot for it. -/
def Declarable (registry : Registry) (table : SymbolTable) (ty name : String) : Prop :=
  registry.isRegistered ty = true ∧ ty ≠ Ty.void.name ∧ ¬ table.IsLive name ∧ table.size < maxSlots

/-- Values of one type can be used as values of another. -/
def Convertible (source target : String) : Prop :=
  source = target ∨ (source = Ty.int32.name ∧ target = Ty.float.name) ∨
    (source = Ty.float.name ∧ target = Ty.int32.name)

theorem convertible_int32_iff {source : String} :
    Convertible source Ty.int32.name ↔ source = Ty.int32.name ∨ source = Ty.float.name := by
  have hne : Ty.int32.name ≠ Ty.float.name := by decide
  simp [Convertible, hne]

/-- The instruction that converts a value, unless it has the wanted type already. -/
def conversion (source target : String) : List Instr :=
  if source = target then []
  else if target = Ty.float.name then [.intToFloat]
  else [.floatToInt]

/-! ## Terms -/

namespace Term

/-- The type of a term over the types of the variables. -/
def typeName (types : String → String) : Term → String
  | constant _ => Ty.int32.name
  | name x => types x
  | operation _ left _ => left.typeName types

/-- Constants are 32-bit integers, variables are live, and operations take integers. On their right
they take floats as well. -/
def WellTyped (registry : Registry) (table : SymbolTable) : Term → Prop
  | constant value =>
      (-2147483648 ≤ value ∧ value ≤ 2147483647) ∧ registry.isRegistered Ty.int32.name = true
  | name x => table.IsLive x
  | operation _ left right =>
      left.WellTyped registry table ∧ right.WellTyped registry table ∧
        left.typeName table.typeOf = Ty.int32.name ∧
        (right.typeName table.typeOf = Ty.int32.name ∨ right.typeName table.typeOf = Ty.float.name)

/-- Operands first, from left to right, then the operation. The right operand is converted to the
type of the left one. -/
def code (table : SymbolTable) : Term → List Instr
  | constant value => [.constInt (BitVec.ofInt 32 value)]
  | name x => [.load (table.slotOf x)]
  | operation op left right =>
      left.code table ++ right.code table ++
        conversion (right.typeName table.typeOf) (left.typeName table.typeOf) ++ [op.instr]

/-- The slot that a term by itself loads. -/
def slot? (table : SymbolTable) : Term → Option UInt8
  | name x => some (table.slotOf x)
  | _ => none

/-- What a term leaves behind. -/
def result (registry : Registry) (table : SymbolTable) (a : Term) : Value :=
  ⟨(registry.lookup? (a.typeName table.typeOf)).getD Ty.void, a.slot? table⟩

end Term

/-! ## Statements -/

namespace Place

def ident : Place → String
  | name x => x
  | declaration _ x => x

/-- The table in which the value for a place is compiled. -/
def after (registry : Registry) (table : SymbolTable) : Place → SymbolTable
  | name _ => table
  | declaration ty x => table.extend registry ty x

def WellTyped (registry : Registry) (table : SymbolTable) : Place → Prop
  | name x => table.IsLive x
  | declaration ty x => Declarable registry table ty x

end Place

namespace Statement

variable (registry : Registry) (table : SymbolTable)

/-- The table behind a statement. -/
def after : Statement → SymbolTable
  | assignment p _ => p.after registry table
  | declaration ty x => table.extend registry ty x
  | value _ => table

/-- A value is assigned if it has the type of its place or can be converted to it. A declared place
is there already when its value is computed. -/
def WellTyped : Statement → Prop
  | assignment p a =>
      p.WellTyped registry table ∧ a.WellTyped registry (p.after registry table) ∧
        Convertible (a.typeName (p.after registry table).typeOf)
          ((p.after registry table).typeOf p.ident)
  | declaration ty x => Declarable registry table ty x
  | value a => a.WellTyped registry table

def code : Statement → List Instr
  | assignment p a =>
      a.code (p.after registry table) ++
        conversion (a.typeName (p.after registry table).typeOf)
          ((p.after registry table).typeOf p.ident) ++
        [.store ((p.after registry table).slotOf p.ident)]
  | declaration .. => []
  | value a => a.code table

/-- What a statement leaves behind. Only values do not leave void. -/
def result : Statement → Value
  | assignment p _ => ⟨Ty.void, some ((p.after registry table).slotOf p.ident)⟩
  | declaration ty x => ⟨Ty.void, some ((table.extend registry ty x).slotOf x)⟩
  | value a => a.result registry table

end Statement

/-! ## Registered types -/

theorem Registry.name_of_lookup? {registry : Registry} {name : String} {ty : Ty}
    (h : registry.lookup? name = some ty) : ty.name = name := by
  simpa using List.find?_some h

theorem Ty.isVoid_eq_false_iff {ty : Ty} : ty.isVoid = false ↔ ty.name ≠ Ty.void.name := by
  simp [Ty.isVoid]

namespace SymbolTable

variable {registry : Registry} {table : SymbolTable} {name : String}

theorem typeOf_of_lookup? {slot : UInt8} {symbol : Symbol}
    (h : table.lookup? name = some (slot, symbol)) : table.typeOf name = symbol.ty.name := by
  simp [typeOf, h]

theorem slotOf_of_lookup? {slot : UInt8} {symbol : Symbol}
    (h : table.lookup? name = some (slot, symbol)) : table.slotOf name = slot := by
  simp [slotOf, h]

theorem isLive_iff :
    table.IsLive name ↔ ∃ slot symbol, table.lookup? name = some (slot, symbol) := by
  simp [IsLive, Option.isSome_iff_exists]

/-- A live variable stands in its slot with its type, which is registered. -/
theorem DeclaredFrom.exists_of_isLive (h : DeclaredFrom registry table)
    (hlive : table.IsLive name) :
    ∃ symbol, table.get? (table.slotOf name) = some symbol ∧ symbol.name = name ∧
      symbol.ty.name = table.typeOf name ∧ registry.lookup? (table.typeOf name) = some symbol.ty ∧
      table.typeOf name ≠ Ty.void.name := by
  obtain ⟨slot, symbol, hlookup⟩ := isLive_iff.mp hlive
  obtain ⟨hget, hname⟩ := h.wellFormed.lookup?_eq_some_iff.mp hlookup
  obtain ⟨hty, hvoid⟩ := h.registered hget
  rw [slotOf_of_lookup? hlookup, typeOf_of_lookup? hlookup]
  exact ⟨symbol, hget, hname, rfl, hty, Ty.isVoid_eq_false_iff.mp hvoid⟩

/-- What a name is looked up as. -/
theorem DeclaredFrom.registered_of_lookup? (h : DeclaredFrom registry table) {slot : UInt8}
    {symbol : Symbol} (hlookup : table.lookup? name = some (slot, symbol)) :
    table.IsLive name ∧ slot = table.slotOf name ∧
      registry.lookup? (table.typeOf name) = some symbol.ty := by
  obtain ⟨hget, -⟩ := h.wellFormed.lookup?_eq_some_iff.mp hlookup
  rw [slotOf_of_lookup? hlookup, typeOf_of_lookup? hlookup]
  exact ⟨isLive_iff.mpr ⟨slot, symbol, hlookup⟩, rfl, (h.registered hget).1⟩

/-- A declaration that is made could be made, and leaves the extended table. -/
theorem DeclaredFrom.declarable_of_declare (h : DeclaredFrom registry table) {ty : String} {t : Ty}
    {slot : UInt8} {table' : SymbolTable} (ht : registry.lookup? ty = some t)
    (hvoid : t.isVoid = false) (hd : table.declare name t = .ok (slot, table')) :
    Declarable registry table ty name ∧ table' = table.extend registry ty name ∧
      slot = table'.slotOf name := by
  obtain ⟨hfresh, hsize⟩ := (exists_declare_iff h.wellFormed.bounded name t).mp ⟨slot, table', hd⟩
  have hself := (declares_of_declare h.wellFormed.bounded hd).lookup?_self h.wellFormed
  refine ⟨⟨?_, ?_, ?_, hsize⟩, ?_, (slotOf_of_lookup? hself).symm⟩
  · rw [Registry.isRegistered, ht]
    rfl
  · rw [← Registry.name_of_lookup? ht]
    exact Ty.isVoid_eq_false_iff.mp hvoid
  · simp [IsLive, hfresh]
  · simp [SymbolTable.extend, ht, hd]

/-- A declaration that can be made takes the next free slot, and keeps the table over the
registry. -/
theorem DeclaredFrom.extend (h : DeclaredFrom registry table) {ty : String}
    (hd : Declarable registry table ty name) :
    ∃ t, registry.lookup? ty = some t ∧ t.isVoid = false ∧
      table.declare name t =
        .ok ((table.extend registry ty name).slotOf name, table.extend registry ty name) ∧
      DeclaredFrom registry (table.extend registry ty name) := by
  obtain ⟨hregistered, hvoid, hlive, hsize⟩ := hd
  obtain ⟨t, ht⟩ := Option.isSome_iff_exists.mp hregistered
  have hname := Registry.name_of_lookup? ht
  have hvoid : t.isVoid = false := Ty.isVoid_eq_false_iff.mpr (hname ▸ hvoid)
  have hfresh : table.lookup? name = none := by simpa [IsLive] using hlive
  obtain ⟨slot, table', hdeclare⟩ :=
    (exists_declare_iff h.wellFormed.bounded name t).mpr ⟨hfresh, hsize⟩
  obtain ⟨-, rfl, rfl⟩ := h.declarable_of_declare ht hvoid hdeclare
  exact ⟨t, ht, hvoid, hdeclare, h.declare (hname ▸ ht) hvoid hdeclare⟩

/-- The new variable has the type that it is declared with. -/
theorem DeclaredFrom.typeOf_extend (h : DeclaredFrom registry table) {ty : String}
    (hd : Declarable registry table ty name) :
    (table.extend registry ty name).typeOf name = ty := by
  obtain ⟨t, ht, -, hdeclare, -⟩ := h.extend hd
  have hself := (declares_of_declare h.wellFormed.bounded hdeclare).lookup?_self h.wellFormed
  rw [typeOf_of_lookup? hself]
  exact Registry.name_of_lookup? ht

end SymbolTable

namespace Place.WellTyped

variable {registry : Registry} {table : SymbolTable} {p : Place}

theorem declaredFrom (hp : p.WellTyped registry table) (h : table.DeclaredFrom registry) :
    (p.after registry table).DeclaredFrom registry := by
  cases p with
  | name x => exact h
  | declaration ty x =>
      obtain ⟨-, -, -, -, hafter⟩ := h.extend hp
      exact hafter

/-- A place is there by the time its value is computed. -/
theorem isLive_ident (hp : p.WellTyped registry table) (h : table.DeclaredFrom registry) :
    (p.after registry table).IsLive p.ident := by
  cases p with
  | name x => exact hp
  | declaration ty x =>
      obtain ⟨t, -, -, hdeclare, -⟩ := h.extend hp
      have hself :=
        (SymbolTable.declares_of_declare h.wellFormed.bounded hdeclare).lookup?_self h.wellFormed
      exact SymbolTable.isLive_iff.mpr ⟨_, _, hself⟩

end Place.WellTyped

/-- A well-typed term has a registered type that is not void. -/
theorem Term.WellTyped.result {registry : Registry} {table : SymbolTable} {a : Term}
    (h : table.DeclaredFrom registry) (ha : a.WellTyped registry table) :
    registry.lookup? (a.typeName table.typeOf) = some (a.result registry table).ty ∧
      (a.result registry table).ty.name = a.typeName table.typeOf ∧
      (a.result registry table).ty.isVoid = false := by
  suffices hty : ∃ ty, registry.lookup? (a.typeName table.typeOf) = some ty ∧ ty.isVoid = false by
    obtain ⟨ty, hty, hvoid⟩ := hty
    rw [Term.result, hty, Option.getD_some]
    exact ⟨rfl, Registry.name_of_lookup? hty, hvoid⟩
  induction a with
  | constant value =>
      obtain ⟨ty, hty⟩ := Option.isSome_iff_exists.mp ha.2
      have hname := Registry.name_of_lookup? hty
      exact ⟨ty, hty, Ty.isVoid_eq_false_iff.mpr (hname ▸ by decide)⟩
  | name x =>
      obtain ⟨symbol, -, -, hname, hty, hne⟩ := h.exists_of_isLive ha
      exact ⟨symbol.ty, hty, Ty.isVoid_eq_false_iff.mpr (hname ▸ hne)⟩
  | operation op left right ihl _ => exact ihl ha.1

end StackScript
