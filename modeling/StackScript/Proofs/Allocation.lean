import StackScript.Proofs.Slots

/-! # The table as an allocator

Over any calls the table hands out slots and takes them back. A slot number is a byte, and the
bound on the length of the table is what makes every index of it one. -/

namespace StackScript.SymbolTable

/-! ## Declaring in place -/

/-- The slot number of an index, which has to be a byte. -/
def slotNumber (index : Nat) : Except Cause UInt8 :=
  if index < UInt8.size then .ok (UInt8.ofNat index) else .error .tooManyVariables

/-- Declare a variable in place. The table is written first, and the slot number is made
afterwards: were there none for the index, the refused variable would stay in the table. -/
def declareInPlace (table : SymbolTable) (name : String) (ty : Ty) :
    Except Cause UInt8 × SymbolTable :=
  if (table.findSlot? name).isSome then (.error (.duplicateIdentifier name), table)
  else
    match table.slots.findIdx? Option.isNone with
    | some index => (slotNumber index, ⟨table.slots.set index (some ⟨name, ty⟩)⟩)
    | none =>
        if table.slots.length < maxSlots then
          (slotNumber table.slots.length, ⟨table.slots ++ [some ⟨name, ty⟩]⟩)
        else
          (.error .tooManyVariables, table)

/-- The answer to a declaration and the table behind it, which is the old one after a refusal. -/
def settle (table : SymbolTable) :
    Except Cause (UInt8 × SymbolTable) → Except Cause UInt8 × SymbolTable
  | .ok (slot, table') => (.ok slot, table')
  | .error cause => (.error cause, table)

/-- The table after a call that works in place. -/
def performInPlace (table : SymbolTable) : Call → SymbolTable
  | .declare name ty => (table.declareInPlace name ty).2
  | .free slot => (table.free slot).2
  | .reset => {}

theorem slotNumber_of_lt {index : Nat} (h : index < maxSlots) :
    slotNumber index = .ok (UInt8.ofNat index) :=
  if_pos h

/-- As long as the table is no longer than there are slot numbers, none of them is missing. -/
theorem declareInPlace_eq_settle {table : SymbolTable} (h : table.slots.length ≤ maxSlots)
    (name : String) (ty : Ty) :
    table.declareInPlace name ty = table.settle (table.declare name ty) := by
  unfold declareInPlace declare
  split
  · rfl
  · cases hindex : table.slots.findIdx? Option.isNone with
    | some index =>
        have hlt := (List.findIdx?_eq_some_iff_getElem.mp hindex).1
        simp only [slotNumber_of_lt (Nat.lt_of_lt_of_le hlt h), settle]
    | none =>
        by_cases hlt : table.slots.length < maxSlots
        · simp only [slotNumber_of_lt hlt, hlt, if_true, settle]
        · simp only [hlt, if_false, settle]

theorem performInPlace_eq_perform {table : SymbolTable} (h : table.slots.length ≤ maxSlots)
    (call : Call) : table.performInPlace call = table.perform call := by
  cases call with
  | declare name ty =>
      rw [performInPlace, perform, declareInPlace_eq_settle h]
      cases table.declare name ty <;> rfl
  | free slot => rfl
  | reset => rfl

/-! ## Runs -/

/-- The table never gets shorter than it is at the start. -/
theorem initialSlots_le_declare {table table' : SymbolTable}
    (h : initialSlots ≤ table.slots.length) {name : String} {ty : Ty} {slot : UInt8}
    (hd : table.declare name ty = .ok (slot, table')) : initialSlots ≤ table'.slots.length := by
  unfold declare at hd
  split at hd
  · cases hd
  · split at hd
    · cases hd
      simpa only [List.length_set] using h
    · split at hd
      · cases hd
        rw [List.length_append]
        omega
      · cases hd

theorem initialSlots_le_perform {table : SymbolTable} (h : initialSlots ≤ table.slots.length)
    (call : Call) : initialSlots ≤ (table.perform call).slots.length := by
  cases call with
  | declare name ty =>
      rw [perform]
      split
      · rename_i hd
        exact initialSlots_le_declare h hd
      · exact h
  | free slot => simpa only [perform, free, List.length_set] using h
  | reset => simp [perform]

/-- What holds of every table that calls lead to, one after the other. -/
theorem foldl_perform_wellFormed {table : SymbolTable} (h : table.WellFormed)
    (hinitial : initialSlots ≤ table.slots.length) (calls : List Call) :
    (calls.foldl perform table).WellFormed ∧
      initialSlots ≤ (calls.foldl perform table).slots.length := by
  induction calls generalizing table with
  | nil => exact ⟨h, hinitial⟩
  | cons call calls ih => exact ih (h.perform call) (initialSlots_le_perform hinitial call)

theorem foldl_performInPlace_eq {table : SymbolTable} (h : table.WellFormed) (calls : List Call) :
    calls.foldl performInPlace table = calls.foldl perform table := by
  induction calls generalizing table with
  | nil => rfl
  | cons call calls ih =>
      rw [List.foldl_cons, List.foldl_cons, performInPlace_eq_perform h.bounded]
      exact ih (h.perform call)

/-- A variable stays in its slot through every call that neither frees the slot nor starts over. -/
theorem WellFormed.get?_perform {table : SymbolTable} (h : table.WellFormed) {slot : UInt8}
    {symbol : Symbol} (hget : table.get? slot = some symbol) {call : Call}
    (hfree : call ≠ .free slot) (hreset : call ≠ .reset) :
    (table.perform call).get? slot = some symbol := by
  cases call with
  | declare name ty =>
      simp only [SymbolTable.perform]
      cases hd : table.declare name ty with
      | error cause => exact hget
      | ok declared =>
          obtain ⟨_, table'⟩ := declared
          exact (declares_of_declare h.bounded hd).get?_of_some hget
  | free other =>
      have hne : slot ≠ other := fun heq => hfree (heq ▸ rfl)
      rw [SymbolTable.perform, get?_free, if_neg hne]
      exact hget
  | reset => exact absurd rfl hreset

theorem WellFormed.get?_foldl_perform {table : SymbolTable} (h : table.WellFormed) {slot : UInt8}
    {symbol : Symbol} (hget : table.get? slot = some symbol) {calls : List Call}
    (hcalls : ∀ call ∈ calls, call ≠ .free slot ∧ call ≠ .reset) :
    (calls.foldl SymbolTable.perform table).get? slot = some symbol := by
  induction calls generalizing table with
  | nil => exact hget
  | cons call calls ih =>
      obtain ⟨⟨hfree, hreset⟩, hrest⟩ := List.forall_mem_cons.mp hcalls
      exact ih (h.perform call) (h.get?_perform hget hfree hreset) hrest

/-! ## Live variables -/

/-- Slots are listed in their order. -/
theorem pairwise_lt_live {table : SymbolTable} (h : table.slots.length ≤ maxSlots) :
    table.live.Pairwise fun a b => a.1 < b.1 := by
  have hindices : table.slots.zipIdx.Pairwise fun a b => a.2 < b.2 := by
    rw [← List.pairwise_map (f := Prod.snd) (R := (· < ·)), List.zipIdx_map_snd]
    exact List.pairwise_lt_range'
  apply List.Pairwise.filterMap _ _ (hindices.imp_of_mem ?_)
  · exact fun a b => a.2 < b.2 ∧ b.2 < UInt8.size
  · rintro ⟨symbol?, i⟩ ⟨symbol'?, j⟩ ⟨hlt, hsize⟩ a ha b hb
    obtain ⟨symbol, -, rfl⟩ := Option.map_eq_some_iff.mp ha
    obtain ⟨symbol', -, rfl⟩ := Option.map_eq_some_iff.mp hb
    rw [UInt8.lt_iff_toNat_lt, UInt8.toNat_ofNat_of_lt' (Nat.lt_trans hlt hsize),
      UInt8.toNat_ofNat_of_lt' hsize]
    exact hlt
  · rintro ⟨symbol?, i⟩ ⟨symbol'?, j⟩ - hmem hlt
    have hget := List.mk_mem_zipIdx_iff_getElem?.mp hmem
    exact ⟨hlt, Nat.lt_of_lt_of_le (List.getElem?_eq_some_iff.mp hget).1 h⟩

theorem length_live (table : SymbolTable) : table.live.length = table.size := by
  have hfrom : ∀ (slots : List (Option Symbol)) (start : Nat),
      ((slots.zipIdx start).filterMap fun p =>
        p.1.map fun symbol => (UInt8.ofNat p.2, symbol)).length =
          (slots.filter Option.isSome).length := by
    intro slots
    induction slots with
    | nil => exact fun _ => rfl
    | cons symbol? slots ih =>
        intro start
        cases symbol? <;> simp [ih]
  exact hfrom table.slots 0

/-- Every slot that is taken is listed under its number. -/
theorem getElem?_slots_iff {table : SymbolTable} (h : table.slots.length ≤ maxSlots) (index : Nat)
    (symbol : Symbol) :
    table.slots[index]? = some (some symbol) ↔
      ∃ slot : UInt8, slot.toNat = index ∧ (slot, symbol) ∈ table.live := by
  constructor
  · intro hget
    have hlt := Nat.lt_of_lt_of_le (List.getElem?_eq_some_iff.mp hget).1 h
    have hslot : (UInt8.ofNat index).toNat = index := UInt8.toNat_ofNat_of_lt' hlt
    refine ⟨UInt8.ofNat index, hslot, ?_⟩
    rw [mem_live_iff h, get?_eq_some_iff, hslot]
    exact hget
  · rintro ⟨slot, rfl, hmem⟩
    exact get?_eq_some_iff.mp ((mem_live_iff h).mp hmem)

theorem WellFormed.nodup_names {table : SymbolTable} (h : table.WellFormed) :
    (table.live.map fun entry => entry.2.name).Nodup := by
  apply List.pairwise_map.mpr
  refine (pairwise_lt_live h.bounded).imp_of_mem ?_
  rintro ⟨i, a⟩ ⟨j, b⟩ ha hb hlt hname
  obtain rfl := h.distinct ((mem_live_iff h.bounded).mp ha) ((mem_live_iff h.bounded).mp hb) hname
  exact UInt8.lt_irrefl _ hlt

theorem WellFormed.findSlot?_eq_some_iff {table : SymbolTable} (h : table.WellFormed)
    {name : String} {slot : UInt8} :
    table.findSlot? name = some slot ↔
      ∃ symbol, table.get? slot = some symbol ∧ symbol.name = name := by
  rw [findSlot?, Option.map_eq_some_iff]
  constructor
  · rintro ⟨⟨_, symbol⟩, hlookup, rfl⟩
    exact ⟨symbol, h.lookup?_eq_some_iff.mp hlookup⟩
  · rintro ⟨symbol, hsymbol⟩
    exact ⟨(slot, symbol), h.lookup?_eq_some_iff.mpr hsymbol, rfl⟩

/-! ## Answers -/

/-- Whether a variable of the name is listed. -/
def Lists (table : SymbolTable) (name : String) : Prop := ∃ entry ∈ table.live, entry.2.name = name

theorem WellFormed.lists_iff {table : SymbolTable} (h : table.WellFormed) {name : String} :
    table.Lists name ↔ ∃ found, table.lookup? name = some found := by
  constructor
  · rintro ⟨⟨slot, symbol⟩, hmem, hname⟩
    exact ⟨_, h.lookup?_eq_some_iff.mpr ⟨(mem_live_iff h.bounded).mp hmem, hname⟩⟩
  · rintro ⟨⟨slot, symbol⟩, hlookup⟩
    obtain ⟨hget, hname⟩ := h.lookup?_eq_some_iff.mp hlookup
    exact ⟨(slot, symbol), (mem_live_iff h.bounded).mpr hget, hname⟩

theorem WellFormed.not_lists_iff {table : SymbolTable} (h : table.WellFormed) {name : String} :
    ¬ table.Lists name ↔ table.lookup? name = none := by
  rw [h.lists_iff]
  cases table.lookup? name <;> simp

theorem declare_eq_duplicate_iff {table : SymbolTable} {name : String} {ty : Ty} :
    table.declare name ty = .error (.duplicateIdentifier name) ↔
      ∃ found, table.lookup? name = some found := by
  unfold declare
  cases hlookup : table.lookup? name with
  | some found => simp [findSlot?, hlookup]
  | none =>
      simp only [findSlot?, hlookup, Option.map_none, Option.isSome_none, Bool.false_eq_true,
        if_false, reduceCtorEq, exists_false, iff_false]
      split
      · simp
      · split <;> simp

/-- A refusal has one of two causes. -/
theorem cause_of_declare {table : SymbolTable} {name : String} {ty : Ty} {cause : Cause}
    (h : table.declare name ty = .error cause) :
    cause = .duplicateIdentifier name ∨ cause = .tooManyVariables := by
  unfold declare at h
  split at h
  · cases h
    exact .inl rfl
  · split at h
    · cases h
    · split at h
      · cases h
      · cases h
        exact .inr rfl

theorem declare_eq_tooMany_iff {table : SymbolTable} (h : table.slots.length ≤ maxSlots)
    {name : String} {ty : Ty} :
    table.declare name ty = .error .tooManyVariables ↔
      table.lookup? name = none ∧ table.size = maxSlots := by
  have hsize : table.size ≤ maxSlots := Nat.le_trans (List.length_filter_le _ _) h
  have hok := exists_declare_iff h name ty
  cases hlookup : table.lookup? name with
  | some found =>
      rw [declare_eq_duplicate_iff.mpr ⟨found, hlookup⟩]
      simp
  | none =>
      rw [hlookup] at hok
      cases hd : table.declare name ty with
      | ok declared =>
          have hlt := (hok.mp ⟨declared.1, declared.2, hd⟩).2
          simp only [reduceCtorEq, false_iff, true_and]
          omega
      | error cause =>
          have hfull : ¬ table.size < maxSlots := by
            intro hlt
            obtain ⟨slot, table', hdeclare⟩ := hok.mpr ⟨rfl, hlt⟩
            rw [hdeclare] at hd
            cases hd
          rcases cause_of_declare hd with rfl | rfl
          · obtain ⟨found, hfound⟩ := declare_eq_duplicate_iff.mp hd
            rw [hfound] at hlookup
            cases hlookup
          · simp only [true_and, true_iff]
            omega

/-- A name whose slot is freed is no longer listed. -/
theorem WellFormed.not_lists_free {table : SymbolTable} (h : table.WellFormed) {slot : UInt8}
    {symbol : Symbol} (hget : table.get? slot = some symbol) :
    ¬ (table.free slot).2.Lists symbol.name := by
  rintro ⟨⟨other, symbol'⟩, hmem, hname⟩
  have hother := (mem_live_iff (h.free slot).bounded).mp hmem
  rw [get?_free] at hother
  split at hother
  · cases hother
  · rename_i hne
    exact hne (h.distinct hother hget hname)

theorem size_free {table : SymbolTable} {slot : UInt8} {symbol : Symbol}
    (hget : table.get? slot = some symbol) : (table.free slot).2.size + 1 = table.size := by
  obtain ⟨hlt, hslot⟩ := List.getElem?_eq_some_iff.mp (get?_eq_some_iff.mp hget)
  have hpos : 0 < table.slots.countP Option.isSome :=
    List.countP_pos_iff.mpr ⟨_, List.getElem_mem hlt, by rw [hslot]; rfl⟩
  simp only [size, free, ← List.countP_eq_length_filter, List.countP_set hlt, hslot,
    Option.isSome_some, Option.isSome_none, if_true, Bool.false_eq_true, if_false]
  omega

/-- What a host can rely on. A table that was written in place is the same table. -/
structure Allocates (table : SymbolTable) : Prop where
  slots_le : initialSlots ≤ table.slots.length ∧ table.slots.length ≤ maxSlots
  names : (table.live.map fun entry => entry.2.name).Nodup
  order : (table.live.map Prod.fst).Pairwise (· < ·)
  listed : ∀ index symbol, table.slots[index]? = some (some symbol) ↔
    ∃ slot : UInt8, slot.toNat = index ∧ (slot, symbol) ∈ table.live
  length : table.live.length = table.size
  find : ∀ name slot, table.findSlot? name = some slot ↔
    ∃ symbol, table.get? slot = some symbol ∧ symbol.name = name
  inPlace : ∀ name ty, table.declareInPlace name ty = table.settle (table.declare name ty)
  duplicate : ∀ name ty,
    table.declare name ty = .error (.duplicateIdentifier name) ↔ table.Lists name
  full : ∀ name ty, table.declare name ty = .error .tooManyVariables ↔
    ¬ table.Lists name ∧ table.size = maxSlots
  lowest : ∀ name ty, ¬ table.Lists name → table.size ≠ maxSlots → ∃ slot table',
    table.declare name ty = .ok (slot, table') ∧ table.IsLowestFree slot ∧
      table'.get? slot = some ⟨name, ty⟩
  stable : ∀ slot symbol, table.get? slot = some symbol → ∀ calls : List Call,
    (∀ call ∈ calls, call ≠ .free slot ∧ call ≠ .reset) →
      (calls.foldl perform table).get? slot = some symbol
  freed : ∀ slot, (table.free slot).1 = table.get? slot ∧ ∀ other,
    (table.perform (.free slot)).get? other = if other = slot then none else table.get? other
  released : ∀ slot symbol, table.get? slot = some symbol →
    ¬ (table.perform (.free slot)).Lists symbol.name ∧
      (table.perform (.free slot)).size + 1 = table.size
  reset : (∀ slot, (table.perform .reset).get? slot = none) ∧
    (table.perform .reset).slots.length = initialSlots

theorem WellFormed.allocates {table : SymbolTable} (h : table.WellFormed)
    (hinitial : initialSlots ≤ table.slots.length) : table.Allocates where
  slots_le := ⟨hinitial, h.bounded⟩
  names := h.nodup_names
  order := List.pairwise_map.mpr (pairwise_lt_live h.bounded)
  listed := getElem?_slots_iff h.bounded
  length := table.length_live
  find _ _ := h.findSlot?_eq_some_iff
  inPlace := declareInPlace_eq_settle h.bounded
  duplicate _ _ := declare_eq_duplicate_iff.trans h.lists_iff.symm
  full _ _ := by rw [declare_eq_tooMany_iff h.bounded, h.not_lists_iff]
  lowest name ty hnew hroom := by
    have hsize : table.size ≤ maxSlots :=
      Nat.le_trans (List.length_filter_le _ _) h.bounded
    obtain ⟨slot, table', hd⟩ := (exists_declare_iff h.bounded name ty).mpr
      ⟨h.not_lists_iff.mp hnew, Nat.lt_of_le_of_ne hsize hroom⟩
    exact ⟨slot, table', hd, isLowestFree_of_declare h.bounded hd,
      (declares_of_declare h.bounded hd).get?_slot⟩
  stable _ _ hget _ hcalls := h.get?_foldl_perform hget hcalls
  freed slot := ⟨rfl, table.get?_free slot⟩
  released _ _ hget := ⟨h.not_lists_free hget, size_free hget⟩
  reset := ⟨get?_empty, List.length_replicate⟩

/-- Whatever calls a table went through, it lists its variables by slot under distinct names, and
it refuses a declaration only for a name that is taken or where all slot numbers are. Any other
declaration gets the lowest slot that is free. A variable keeps its slot and its type until the slot
is freed or the table starts over. Freeing a slot hands its variable back and leaves all others, and
a table that starts over has no variables. -/
theorem foldl_perform_allocates (calls : List Call) :
    calls.foldl performInPlace {} = calls.foldl perform {} ∧
      (calls.foldl perform {}).Allocates := by
  obtain ⟨hwell, hinitial⟩ := foldl_perform_wellFormed wellFormed_empty (by decide) calls
  exact ⟨foldl_performInPlace_eq wellFormed_empty calls, hwell.allocates hinitial⟩

end StackScript.SymbolTable
