import StackScript.Proofs.Utf8

/-! # Parts of a text

The pieces of a script and the tokens of a piece lie in their texts in the same way: one behind the
other, with nothing but blanks around them. What this means for their offsets is said here once for
both. -/

namespace StackScript.Text

/-! ## Offsets -/

theorem byteLength_eq_zero_iff {cs : List Char} : byteLength cs = 0 ↔ cs = [] := by
  cases cs with
  | nil => simp
  | cons c cs =>
      have hpos := c.utf8Size_pos
      rw [byteLength_cons]
      simp only [reduceCtorEq, iff_false]
      omega

theorem byteLength_cons_eq_succ (c : Char) (cs : List Char) :
    ∃ n, byteLength (c :: cs) = n + 1 ∧ c.utf8Size ≤ n + 1 ∧
      n + 1 - c.utf8Size = byteLength cs := by
  have hpos := c.utf8Size_pos
  refine ⟨byteLength (c :: cs) - 1, ?_⟩
  rw [byteLength_cons]
  omega

theorem dropBytes?_append (cs ds : List Char) :
    dropBytes? (byteLength cs) (cs ++ ds) = some ds := by
  induction cs with
  | nil => cases ds <;> rfl
  | cons c cs ih =>
      obtain ⟨n, hn, hle, hrest⟩ := byteLength_cons_eq_succ c cs
      rw [hn, List.cons_append, dropBytes?, if_pos hle, hrest, ih]

theorem takeBytes?_append (cs ds : List Char) :
    takeBytes? (byteLength cs) (cs ++ ds) = some cs := by
  induction cs with
  | nil => cases ds <;> rfl
  | cons c cs ih =>
      obtain ⟨n, hn, hle, hrest⟩ := byteLength_cons_eq_succ c cs
      rw [hn, List.cons_append, takeBytes?, if_pos hle, hrest, ih, Option.map_some]

/-- A part that stands in a text is cut out of it at its offsets. -/
theorem StandsAt.slice?_eq {text part : List Char} {pos : Nat} (h : StandsAt text part pos) :
    slice? text pos (pos + byteLength part) = some part := by
  obtain ⟨before, behind, rfl, rfl⟩ := h
  rw [slice?, if_pos (Nat.le_add_right _ _), dropBytes?_append, Option.bind_some,
    Nat.add_sub_cancel_left, takeBytes?_append]

/-- The character that starts at an offset. -/
def charAt? (cs : List Char) (offset : Nat) : Option Char :=
  (dropBytes? offset cs).bind List.head?

theorem charAt?_append (cs ds : List Char) : charAt? (cs ++ ds) (byteLength cs) = ds.head? := by
  rw [charAt?, dropBytes?_append, Option.bind_some]

/-! ## Parts and their offsets -/

structure Part where
  start : Nat
  chars : List Char

/-- Offset just past the part. -/
def Part.stop (part : Part) : Nat := part.start + byteLength part.chars

/-- The offset is that of a byte of the part. -/
def Part.Holds (part : Part) (offset : Nat) : Prop := part.start ≤ offset ∧ offset < part.stop

/-- The parts lie in the text one behind the other, none of them is empty, each of them starts and
ends between two characters, and every byte outside of them is blank. -/
structure IsPartition (blanks : Bytes) (text : List Char) (parts : List Part) : Prop where
  nonempty : ∀ part ∈ parts, part.start < part.stop
  ordered : parts.Pairwise fun part next => part.stop ≤ next.start
  slice : ∀ part ∈ parts, slice? text part.start part.stop = some part.chars
  outside : ∀ offset byte, (utf8 text)[offset]? = some byte →
    (∀ part ∈ parts, ¬ part.Holds offset) → byte ∈ blanks

theorem Part.start_lt_stop {part : Part} (h : part.chars ≠ []) : part.start < part.stop := by
  have hlength := mt byteLength_eq_zero_iff.mp h
  rw [stop]
  omega

/-! ## Texts read part by part -/

/-- A text that starts at an offset consists of the parts and of blanks around them. -/
inductive LaidOut (blanks : Bytes) : Nat → List Char → List Part → Prop where
  | nil {pos : Nat} : LaidOut blanks pos [] []
  | blank {pos : Nat} {c : Char} {cs : List Char} {parts : List Part} :
      (∀ byte ∈ String.utf8EncodeChar c, byte ∈ blanks) →
      LaidOut blanks (pos + c.utf8Size) cs parts → LaidOut blanks pos (c :: cs) parts
  | part {part : Part} {rest : List Char} {parts : List Part} :
      part.chars ≠ [] → LaidOut blanks part.stop rest parts →
      LaidOut blanks part.start (part.chars ++ rest) (part :: parts)

namespace LaidOut

variable {blanks : Bytes} {pos : Nat} {cs : List Char} {parts : List Part}

theorem gap {gap : List Char}
    (hgap : ∀ c ∈ gap, ∀ byte ∈ String.utf8EncodeChar c, byte ∈ blanks)
    (h : LaidOut blanks (pos + byteLength gap) cs parts) :
    LaidOut blanks pos (gap ++ cs) parts := by
  induction gap generalizing pos with
  | nil => exact h
  | cons c gap ih =>
      obtain ⟨hc, hgap⟩ := List.forall_mem_cons.mp hgap
      rw [byteLength_cons, ← Nat.add_assoc] at h
      exact .blank hc (ih hgap h)

theorem le_start (h : LaidOut blanks pos cs parts) : ∀ part ∈ parts, pos ≤ part.start := by
  induction h with
  | nil => simp
  | blank _ _ ih => exact fun part hpart => Nat.le_trans (Nat.le_add_right _ _) (ih part hpart)
  | part _ _ ih =>
      refine List.forall_mem_cons.mpr ⟨Nat.le_refl _, fun next hnext => ?_⟩
      exact Nat.le_trans (Nat.le_add_right _ _) (ih next hnext)

theorem nonempty (h : LaidOut blanks pos cs parts) : ∀ part ∈ parts, part.start < part.stop := by
  induction h with
  | nil => simp
  | blank _ _ ih => exact ih
  | part hchars _ ih => exact List.forall_mem_cons.mpr ⟨Part.start_lt_stop hchars, ih⟩

theorem ordered (h : LaidOut blanks pos cs parts) :
    parts.Pairwise fun part next => part.stop ≤ next.start := by
  induction h with
  | nil => exact .nil
  | blank _ _ ih => exact ih
  | part _ hrest ih => exact .cons hrest.le_start ih

theorem standsAt (h : LaidOut blanks pos cs parts) {text : List Char} (before : List Char)
    (htext : text = before ++ cs) (hpos : byteLength before = pos) :
    ∀ part ∈ parts, StandsAt text part.chars part.start := by
  induction h generalizing before with
  | nil => simp
  | @blank pos c cs parts _ _ ih =>
      refine ih (before ++ [c]) ?_ ?_
      · rw [htext, List.append_assoc, List.singleton_append]
      · rw [byteLength_append, hpos, byteLength_cons, byteLength_nil, Nat.add_zero]
  | @part part rest parts _ _ ih =>
      refine List.forall_mem_cons.mpr ⟨⟨before, rest, htext, hpos⟩, ?_⟩
      refine ih (before ++ part.chars) ?_ ?_
      · rw [htext, List.append_assoc]
      · rw [byteLength_append, hpos, Part.stop]

/-- A byte that no part holds is blank. -/
theorem outside (h : LaidOut blanks pos cs parts) {index : Nat} {byte : UInt8}
    (hbyte : (utf8 cs)[index]? = some byte) (hout : ∀ part ∈ parts, ¬ part.Holds (pos + index)) :
    byte ∈ blanks := by
  induction h generalizing index with
  | nil => cases hbyte
  | @blank pos c cs parts hc _ ih =>
      rw [utf8_cons, List.getElem?_append, String.length_utf8EncodeChar] at hbyte
      split at hbyte
      · exact hc byte (List.mem_of_getElem? hbyte)
      · refine ih hbyte fun part hpart => ?_
        have hindex : pos + c.utf8Size + (index - c.utf8Size) = pos + index := by omega
        rw [hindex]
        exact hout part hpart
  | @part part rest parts _ _ ih =>
      obtain ⟨hpart, hparts⟩ := List.forall_mem_cons.mp hout
      -- The offset lies behind the first part, so the byte is one of the rest.
      have hbehind : byteLength part.chars ≤ index := by
        rw [Part.Holds, Part.stop] at hpart
        omega
      rw [utf8_append, List.getElem?_append_right (by rwa [length_utf8]), length_utf8] at hbyte
      refine ih hbyte fun next hnext => ?_
      have hindex : part.stop + (index - byteLength part.chars) = part.start + index := by
        rw [Part.stop]
        omega
      rw [hindex]
      exact hparts next hnext

theorem isPartition (h : LaidOut blanks 0 cs parts) : IsPartition blanks cs parts where
  nonempty := h.nonempty
  ordered := h.ordered
  slice part hpart := (h.standsAt [] rfl rfl part hpart).slice?_eq
  outside offset byte hbyte hout := by
    refine h.outside hbyte fun part hpart => ?_
    rw [Nat.zero_add]
    exact hout part hpart

end LaidOut

end StackScript.Text
