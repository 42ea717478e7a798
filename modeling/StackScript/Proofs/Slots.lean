import StackScript.SymbolTable

/-! # Slots and names

A table is seen through the variable in each slot. Declaring fills one free slot and freeing
empties one; no name ever stands in two slots, so looking a name up inverts the view. -/

namespace StackScript.SymbolTable

/-! ## The view by slots -/

/-- There are no more slots than slot numbers, and every name has one slot at most. -/
structure WellFormed (table : SymbolTable) : Prop where
  bounded : table.slots.length ≤ maxSlots
  distinct : ∀ {i j : UInt8} {a b : Symbol}, table.get? i = some a → table.get? j = some b →
    a.name = b.name → i = j

theorem get?_eq_some_iff {table : SymbolTable} {slot : UInt8} {symbol : Symbol} :
    table.get? slot = some symbol ↔ table.slots[slot.toNat]? = some (some symbol) := by
  simp [get?, Option.join_eq_some_iff]

theorem mem_live_iff {table : SymbolTable} (h : table.slots.length ≤ maxSlots) {slot : UInt8}
    {symbol : Symbol} : (slot, symbol) ∈ table.live ↔ table.get? slot = some symbol := by
  rw [get?_eq_some_iff]
  simp only [live, List.mem_filterMap, Option.map_eq_some_iff, Prod.mk.injEq]
  constructor
  · rintro ⟨⟨symbol?, index⟩, hmem, symbol', hsome, rfl, rfl⟩
    rw [List.mk_mem_zipIdx_iff_getElem?] at hmem
    have hlt : index < 256 := Nat.lt_of_lt_of_le (List.getElem?_eq_some_iff.mp hmem).1 h
    simp only at hsome ⊢
    rw [UInt8.toNat_ofNat_of_lt' hlt, hmem, hsome]
  · intro hget
    refine ⟨(some symbol, slot.toNat), ?_, symbol, rfl, ?_, rfl⟩
    · rw [List.mk_mem_zipIdx_iff_getElem?]
      exact hget
    · exact UInt8.ofNat_toNat

theorem WellFormed.lookup?_eq_some_iff {table : SymbolTable} (h : table.WellFormed) {name : String}
    {slot : UInt8} {symbol : Symbol} :
    table.lookup? name = some (slot, symbol) ↔
      table.get? slot = some symbol ∧ symbol.name = name := by
  constructor
  · intro hlookup
    have hmem := List.mem_of_find?_eq_some hlookup
    have hname := List.find?_some hlookup
    exact ⟨(mem_live_iff h.bounded).mp hmem, beq_iff_eq.mp hname⟩
  · rintro ⟨hget, rfl⟩
    have hmem := (mem_live_iff h.bounded).mpr hget
    cases hlookup : table.lookup? symbol.name with
    | none =>
        have hnone := List.find?_eq_none.mp hlookup _ hmem
        simp at hnone
    | some found =>
        obtain ⟨slot', symbol'⟩ := found
        have hget' := (mem_live_iff h.bounded).mp (List.mem_of_find?_eq_some hlookup)
        have hname := List.find?_some hlookup
        obtain rfl := h.distinct hget' hget (beq_iff_eq.mp hname)
        rw [hget, Option.some.injEq] at hget'
        rw [hget']

theorem WellFormed.lookup?_eq_none_iff {table : SymbolTable} (h : table.WellFormed)
    {name : String} :
    table.lookup? name = none ↔
      ∀ slot symbol, table.get? slot = some symbol → symbol.name ≠ name := by
  constructor
  · rintro hnone slot symbol hget rfl
    rw [h.lookup?_eq_some_iff.mpr ⟨hget, rfl⟩] at hnone
    cases hnone
  · intro hne
    cases hlookup : table.lookup? name with
    | none => rfl
    | some found =>
        obtain ⟨hget, hname⟩ := h.lookup?_eq_some_iff.mp hlookup
        exact absurd hname (hne _ _ hget)

/-! ## Declaring and freeing -/

/-- The table before and after a declaration: a free slot is filled, and nothing else changes. -/
structure Declares (table : SymbolTable) (symbol : Symbol) (slot : UInt8) (table' : SymbolTable) :
    Prop where
  fresh : table.lookup? symbol.name = none
  free : table.get? slot = none
  get? : ∀ s, table'.get? s = if s = slot then some symbol else table.get? s
  bounded : table'.slots.length ≤ maxSlots

section Slots

variable {table : SymbolTable} {symbol : Symbol} (hfresh : table.lookup? symbol.name = none)
include hfresh

/-- The lowest of the free slots is filled. -/
theorem declares_set (h : table.slots.length ≤ maxSlots) {index : Nat}
    (hindex : table.slots.findIdx? Option.isNone = some index) :
    table.Declares symbol (UInt8.ofNat index) ⟨table.slots.set index (some symbol)⟩ := by
  obtain ⟨hlt, hfree, -⟩ := List.findIdx?_eq_some_iff_getElem.mp hindex
  have hslot : (UInt8.ofNat index).toNat = index :=
    UInt8.toNat_ofNat_of_lt' (Nat.lt_of_lt_of_le hlt h)
  refine ⟨hfresh, ?_, ?_, by simpa using h⟩
  · simp only [SymbolTable.get?, hslot, List.getElem?_eq_getElem hlt]
    simpa using hfree
  · intro s
    simp only [SymbolTable.get?, List.getElem?_set]
    by_cases hs : s = UInt8.ofNat index
    · subst hs
      simp [hslot, hlt]
    · have hne : index ≠ s.toNat := by
        rintro rfl
        exact hs (by simp)
      simp [hs, hne]

/-- Where no slot is free, one more is taken. -/
theorem declares_append (hlt : table.slots.length < maxSlots) :
    table.Declares symbol (UInt8.ofNat table.slots.length) ⟨table.slots ++ [some symbol]⟩ := by
  have hslot : (UInt8.ofNat table.slots.length).toNat = table.slots.length :=
    UInt8.toNat_ofNat_of_lt' hlt
  refine ⟨hfresh, ?_, ?_, ?_⟩
  · simp only [SymbolTable.get?, hslot, List.getElem?_eq_none (Nat.le_refl _)]
    rfl
  · intro s
    by_cases hs : s = UInt8.ofNat table.slots.length
    · subst hs
      simp [SymbolTable.get?, hslot]
    · have hne : s.toNat ≠ table.slots.length := by
        intro heq
        exact hs (by rw [← heq]; simp)
      rw [if_neg hs]
      simp only [SymbolTable.get?, List.getElem?_append]
      split
      · rfl
      · rename_i hge
        rw [List.getElem?_eq_none (by simp; omega), List.getElem?_eq_none (by omega)]
  · rw [List.length_append, List.length_singleton]
    exact hlt

end Slots

theorem declares_of_declare {table table' : SymbolTable} (h : table.slots.length ≤ maxSlots)
    {name : String} {ty : Ty} {slot : UInt8} (hd : table.declare name ty = .ok (slot, table')) :
    table.Declares ⟨name, ty⟩ slot table' := by
  unfold declare at hd
  split at hd
  · cases hd
  · rename_i htaken
    have hfresh : table.lookup? name = none := by
      simpa [findSlot?] using htaken
    split at hd
    · rename_i index hindex
      cases hd
      exact declares_set hfresh h hindex
    · split at hd
      · rename_i hlt
        cases hd
        exact declares_append hfresh hlt
      · cases hd

/-- The slot is free, and every slot below it is taken. -/
def IsLowestFree (table : SymbolTable) (slot : UInt8) : Prop :=
  table.get? slot = none ∧ ∀ s < slot, table.get? s ≠ none

theorem isLowestFree_of_declare {table table' : SymbolTable} (h : table.slots.length ≤ maxSlots)
    {name : String} {ty : Ty} {slot : UInt8} (hd : table.declare name ty = .ok (slot, table')) :
    table.IsLowestFree slot := by
  refine ⟨(declares_of_declare h hd).free, fun s hs => ?_⟩
  -- Below the slot there are slots of the table, and none of them is empty.
  suffices htaken : ∃ symbol, table.slots[s.toNat]? = some (some symbol) by
    obtain ⟨symbol, hsymbol⟩ := htaken
    rw [get?_eq_some_iff.mpr hsymbol]
    exact Option.some_ne_none symbol
  unfold declare at hd
  split at hd
  · cases hd
  · split at hd
    · rename_i index hindex
      obtain ⟨hlt, -, hbelow⟩ := List.findIdx?_eq_some_iff_getElem.mp hindex
      have hslot : index < 256 := Nat.lt_of_lt_of_le hlt h
      cases hd
      rw [UInt8.lt_iff_toNat_lt, UInt8.toNat_ofNat_of_lt' hslot] at hs
      rw [List.getElem?_eq_getElem (Nat.lt_trans hs hlt)]
      exact (Option.ne_none_iff_exists'.mp (by simpa using hbelow s.toNat hs)).imp
        fun _ => congrArg some
    · rename_i hfull
      split at hd
      · rename_i hroom
        cases hd
        rw [UInt8.lt_iff_toNat_lt, UInt8.toNat_ofNat_of_lt' hroom] at hs
        rw [List.getElem?_eq_getElem hs]
        have hsome := List.findIdx?_eq_none_iff.mp hfull _ (List.getElem_mem hs)
        exact (Option.isSome_iff_exists.mp (by simpa using hsome)).imp fun _ => congrArg some
      · cases hd

/-- A variable can be declared unless its name is taken or all slots are. -/
theorem exists_declare_iff {table : SymbolTable} (h : table.slots.length ≤ maxSlots)
    (name : String) (ty : Ty) :
    (∃ slot table', table.declare name ty = .ok (slot, table')) ↔
      table.lookup? name = none ∧ table.size < maxSlots := by
  have hfull : table.slots.findIdx? Option.isNone = none ↔ table.size = table.slots.length := by
    rw [List.findIdx?_eq_none_iff, size, List.length_filter_eq_length_iff]
    simp [Option.isSome_iff_ne_none]
  have hle : table.size ≤ table.slots.length := List.length_filter_le _ _
  unfold declare
  cases hlookup : table.lookup? name with
  | some found => simp [findSlot?, hlookup]
  | none =>
      simp only [findSlot?, hlookup, Option.map_none, Option.isSome_none, Bool.false_eq_true,
        if_false, true_and]
      cases hindex : table.slots.findIdx? Option.isNone with
      | some index =>
          have hne : table.size ≠ table.slots.length := by
            intro heq
            rw [hfull.mpr heq] at hindex
            cases hindex
          have hlt : table.size < maxSlots := by omega
          simp [hlt]
      | none =>
          have heq := hfull.mp hindex
          simp only [heq]
          split <;> simp_all

theorem get?_free (table : SymbolTable) (slot s : UInt8) :
    (table.free slot).2.get? s = if s = slot then none else table.get? s := by
  simp only [free, get?, List.getElem?_set]
  by_cases hs : s = slot
  · subst hs
    simp only [if_true]
    split <;> simp_all
  · have hne : slot.toNat ≠ s.toNat := fun heq => hs (UInt8.toNat_inj.mp heq.symm)
    simp [hs, hne]

theorem get?_empty (slot : UInt8) : ({} : SymbolTable).get? slot = none := by
  simp only [get?, List.getElem?_replicate]
  split <;> rfl

theorem wellFormed_empty : ({} : SymbolTable).WellFormed := by
  refine ⟨by decide, ?_⟩
  intro i j a b hi
  rw [get?_empty] at hi
  cases hi

theorem WellFormed.free {table : SymbolTable} (h : table.WellFormed) (slot : UInt8) :
    (table.free slot).2.WellFormed := by
  have hget : ∀ {s symbol}, (table.free slot).2.get? s = some symbol →
      table.get? s = some symbol := by
    intro s symbol hs
    rw [get?_free] at hs
    split at hs
    · cases hs
    · exact hs
  refine ⟨by simpa [SymbolTable.free] using h.bounded, ?_⟩
  intro i j a b hi hj hname
  exact h.distinct (hget hi) (hget hj) hname

namespace Declares

variable {table table' : SymbolTable} {symbol : Symbol} {slot : UInt8}

theorem get?_slot (hd : table.Declares symbol slot table') : table'.get? slot = some symbol := by
  rw [hd.get?, if_pos rfl]

/-- What was there before is still there. -/
theorem get?_of_some (hd : table.Declares symbol slot table') {s : UInt8} {old : Symbol}
    (h : table.get? s = some old) : table'.get? s = some old := by
  rw [hd.get?, if_neg, h]
  rintro rfl
  rw [hd.free] at h
  cases h

theorem eq_or_get? (hd : table.Declares symbol slot table') {s : UInt8} {found : Symbol}
    (h : table'.get? s = some found) : (s = slot ∧ found = symbol) ∨ table.get? s = some found := by
  rw [hd.get?] at h
  split at h
  · rename_i hs
    cases h
    exact .inl ⟨hs, rfl⟩
  · exact .inr h

theorem wellFormed (hd : table.Declares symbol slot table') (h : table.WellFormed) :
    table'.WellFormed := by
  have hfresh := h.lookup?_eq_none_iff.mp hd.fresh
  refine ⟨hd.bounded, ?_⟩
  intro i j a b hi hj hname
  rcases hd.eq_or_get? hi with ⟨rfl, rfl⟩ | hi
  · rcases hd.eq_or_get? hj with ⟨rfl, -⟩ | hj
    · rfl
    · exact absurd hname.symm (hfresh j b hj)
  · rcases hd.eq_or_get? hj with ⟨rfl, rfl⟩ | hj
    · exact absurd hname (hfresh i a hi)
    · exact h.distinct hi hj hname

theorem lookup?_self (hd : table.Declares symbol slot table') (h : table.WellFormed) :
    table'.lookup? symbol.name = some (slot, symbol) :=
  (hd.wellFormed h).lookup?_eq_some_iff.mpr ⟨hd.get?_slot, rfl⟩

theorem lookup?_of_ne (hd : table.Declares symbol slot table') (h : table.WellFormed)
    {name : String} (hne : name ≠ symbol.name) : table'.lookup? name = table.lookup? name := by
  cases hlookup : table.lookup? name with
  | some found =>
      obtain ⟨hget, hname⟩ := h.lookup?_eq_some_iff.mp hlookup
      exact (hd.wellFormed h).lookup?_eq_some_iff.mpr ⟨hd.get?_of_some hget, hname⟩
  | none =>
      refine (hd.wellFormed h).lookup?_eq_none_iff.mpr ?_
      intro s found hget
      rcases hd.eq_or_get? hget with ⟨-, rfl⟩ | hget
      · exact hne.symm
      · exact h.lookup?_eq_none_iff.mp hlookup s found hget

end Declares

/-! ## Tables over a registry -/

/-- A table in which variables of registered types were declared and freed, in any order. -/
inductive DeclaredFrom (registry : Registry) : SymbolTable → Prop where
  | empty : DeclaredFrom registry {}
  | declare {table table' : SymbolTable} {name : String} {ty : Ty} {slot : UInt8} :
      DeclaredFrom registry table → registry.lookup? ty.name = some ty → ty.isVoid = false →
      table.declare name ty = .ok (slot, table') → DeclaredFrom registry table'
  | free {table : SymbolTable} (slot : UInt8) :
      DeclaredFrom registry table → DeclaredFrom registry (table.free slot).2

namespace DeclaredFrom

variable {registry : Registry} {table : SymbolTable}

theorem wellFormed (h : DeclaredFrom registry table) : table.WellFormed := by
  induction h with
  | empty => exact wellFormed_empty
  | declare _ _ _ hd ih => exact (declares_of_declare ih.bounded hd).wellFormed ih
  | free slot _ ih => exact ih.free slot

/-- The types of the variables are the registered ones, and none of them is void. -/
theorem registered (h : DeclaredFrom registry table) {slot : UInt8} {symbol : Symbol}
    (hget : table.get? slot = some symbol) :
    registry.lookup? symbol.ty.name = some symbol.ty ∧ symbol.ty.isVoid = false := by
  induction h generalizing slot symbol with
  | empty =>
      rw [get?_empty] at hget
      cases hget
  | declare htable hty hvoid hd ih =>
      rcases (declares_of_declare htable.wellFormed.bounded hd).eq_or_get? hget with ⟨-, rfl⟩ | hget
      · exact ⟨hty, hvoid⟩
      · exact ih hget
  | free slot' _ ih =>
      rw [get?_free] at hget
      split at hget
      · cases hget
      · exact ih hget

end DeclaredFrom

/-! ## Calls -/

/-- What a host can do to a table. -/
inductive Call where
  | declare (name : String) (ty : Ty)
  | free (slot : UInt8)
  | reset
  deriving DecidableEq, Repr

/-- The table after a call. A declaration that is refused changes nothing. -/
def perform (table : SymbolTable) : Call → SymbolTable
  | .declare name ty =>
      match table.declare name ty with
      | .ok (_, table') => table'
      | .error _ => table
  | .free slot => (table.free slot).2
  | .reset => {}

theorem WellFormed.declare {table table' : SymbolTable} (h : table.WellFormed) {name : String}
    {ty : Ty} {slot : UInt8} (hd : table.declare name ty = .ok (slot, table')) :
    table'.WellFormed :=
  (declares_of_declare h.bounded hd).wellFormed h

theorem WellFormed.perform {table : SymbolTable} (h : table.WellFormed) (call : Call) :
    (table.perform call).WellFormed := by
  cases call with
  | declare name ty =>
      simp only [SymbolTable.perform]
      split
      · rename_i hd
        exact h.declare hd
      · exact h
  | free slot => exact h.free slot
  | reset => exact wellFormed_empty

end StackScript.SymbolTable
