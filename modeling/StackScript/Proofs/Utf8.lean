import StackScript.Bytes
import StackScript.Text.Offset

/-! # Text as bytes

Offsets count bytes, so what stands at an offset is said of the bytes of a text. A character that is
not ASCII has no ASCII byte in it: newlines can be counted among the bytes. -/

namespace StackScript.Text

/-- The bytes of a text. -/
def utf8 (cs : List Char) : Bytes := cs.flatMap String.utf8EncodeChar

@[simp] theorem utf8_nil : utf8 [] = [] := rfl

@[simp] theorem utf8_cons (c : Char) (cs : List Char) :
    utf8 (c :: cs) = String.utf8EncodeChar c ++ utf8 cs := rfl

@[simp] theorem utf8_append (cs ds : List Char) : utf8 (cs ++ ds) = utf8 cs ++ utf8 ds :=
  List.flatMap_append

@[simp] theorem length_utf8 (cs : List Char) : (utf8 cs).length = byteLength cs := by
  induction cs with
  | nil => rfl
  | cons c cs ih => rw [utf8_cons, List.length_append, ih, String.length_utf8EncodeChar, byteLength]

/-- These are the bytes that a string is made of. -/
theorem toByteArray_utf8 (s : String) : (utf8 s.toList).toByteArray = s.toByteArray :=
  String.utf8Encode_toList

/-! ## Newlines -/

/-- An ASCII byte is the whole of the character that it belongs to. -/
theorem toNat_of_mem_utf8EncodeChar {c : Char} {b : UInt8} (h : b ∈ String.utf8EncodeChar c)
    (hb : b.toNat < 128) : c.toNat = b.toNat := by
  simp only [String.utf8EncodeChar] at h
  split at h
  · rename_i hascii
    rw [List.mem_singleton.mp h, UInt8.toNat_ofNat', Nat.mod_eq_of_lt (by omega)]
    rfl
  · -- All bytes of a longer encoding have their highest bit set.
    have hhigh : ∀ n : Nat, 128 ≤ n % 256 → b ≠ UInt8.ofNat n := by
      rintro n hn rfl
      rw [UInt8.toNat_ofNat'] at hb
      omega
    split at h
    · simp only [List.mem_cons, List.not_mem_nil, or_false] at h
      rcases h with h | h <;> exact absurd h (hhigh _ (by omega))
    · split at h
      · simp only [List.mem_cons, List.not_mem_nil, or_false] at h
        rcases h with h | h | h <;> exact absurd h (hhigh _ (by omega))
      · simp only [List.mem_cons, List.not_mem_nil, or_false] at h
        rcases h with h | h | h | h <;> exact absurd h (hhigh _ (by omega))

theorem newline_mem_utf8EncodeChar {c : Char} (h : 10 ∈ String.utf8EncodeChar c) : c = '\n' :=
  Char.toNat_inj.mp (toNat_of_mem_utf8EncodeChar h (by decide))

theorem count_newline_take_utf8 (n : Nat) (cs : List Char) :
    ((utf8 cs).take n).count 10 = newlinesBefore n cs := by
  fun_induction newlinesBefore n cs with
  | case1 => simp
  | case2 => simp
  | case3 n c cs ih =>
      rw [utf8_cons, List.take_append, List.count_append, String.length_utf8EncodeChar, ih]
      congr 1
      split
      · rename_i h
        rw [h, List.take_of_length_le (Nat.succ_le_succ (Nat.zero_le n))]
        rfl
      · rename_i h
        apply List.count_eq_zero_of_not_mem
        intro hmem
        exact h (newline_mem_utf8EncodeChar (List.mem_of_mem_take hmem))

/-- Lines are counted by the newline bytes before an offset. -/
theorem lineNumber_eq (cs : List Char) (pos : Nat) :
    lineNumber cs pos = 1 + ((utf8 cs).take pos).count 10 := by
  rw [lineNumber, count_newline_take_utf8, Nat.add_comm]

/-! ## Parts of a text -/

/-- The bytes of the text from an offset on start with those of the part. -/
def HoldsAt (text part : List Char) (pos : Nat) : Prop := utf8 part <+: (utf8 text).drop pos

theorem HoldsAt.append {text part part' : List Char} {pos : Nat} (h : HoldsAt text part pos)
    (h' : HoldsAt text part' (pos + byteLength part)) : HoldsAt text (part ++ part') pos := by
  obtain ⟨rest, hrest⟩ := h
  have hdrop : (utf8 text).drop (pos + byteLength part) = rest := by
    rw [← List.drop_drop, ← hrest, List.drop_left' (length_utf8 part)]
  rw [HoldsAt, hdrop] at h'
  rw [HoldsAt, ← hrest, utf8_append]
  exact (List.prefix_append_right_inj _).mpr h'

/-- The part stands in the text at an offset where a character starts. -/
def StandsAt (text part : List Char) (pos : Nat) : Prop :=
  ∃ before behind, text = before ++ (part ++ behind) ∧ byteLength before = pos

theorem StandsAt.trans {text inner part : List Char} {pos start : Nat}
    (h : StandsAt inner part pos) (h' : StandsAt text inner start) :
    StandsAt text part (pos + start) := by
  obtain ⟨before, behind, rfl, rfl⟩ := h
  obtain ⟨before', behind', rfl, rfl⟩ := h'
  refine ⟨before' ++ before, behind ++ behind', by simp, ?_⟩
  rw [byteLength_append, Nat.add_comm]

theorem StandsAt.of_eq {text part : List Char} {pos pos' : Nat} (h : StandsAt text part pos)
    (heq : pos = pos') : StandsAt text part pos' :=
  heq ▸ h

theorem StandsAt.le {text part : List Char} {pos : Nat} (h : StandsAt text part pos) :
    pos + byteLength part ≤ byteLength text := by
  obtain ⟨before, behind, rfl, rfl⟩ := h
  simp only [byteLength_append]
  omega

theorem StandsAt.holdsAt {text part : List Char} {pos : Nat} (h : StandsAt text part pos) :
    HoldsAt text part pos := by
  obtain ⟨before, behind, rfl, rfl⟩ := h
  rw [HoldsAt, utf8_append, List.drop_left' (length_utf8 before), utf8_append]
  exact List.prefix_append _ _

/-- An offset cuts a text in one way only. -/
theorem append_inj_of_byteLength {cs cs' ds ds' : List Char} (h : cs ++ ds = cs' ++ ds')
    (hlen : byteLength cs = byteLength cs') : cs = cs' ∧ ds = ds' := by
  have hnil : ∀ more : List Char, byteLength more = 0 → more = [] := by
    intro more hmore
    cases more with
    | nil => rfl
    | cons c more =>
        rw [byteLength_cons] at hmore
        exact absurd c.utf8Size_pos (by omega)
  rcases List.append_eq_append_iff.mp h with ⟨more, rfl, rfl⟩ | ⟨more, rfl, rfl⟩
  · rw [byteLength_append] at hlen
    obtain rfl := hnil more (by omega)
    simp
  · rw [byteLength_append] at hlen
    obtain rfl := hnil more (by omega)
    simp

theorem takeWhile_append_drop (p : Char → Bool) (cs : List Char) :
    cs.takeWhile p ++ cs.drop (cs.takeWhile p).length = cs := by
  have htake := List.prefix_iff_eq_take.mp (List.takeWhile_prefix (l := cs) p)
  exact (congrArg (· ++ _) htake).trans (List.take_append_drop _ cs)

theorem standsAt_takeWhile (p : Char → Bool) (cs : List Char) : StandsAt cs (cs.takeWhile p) 0 :=
  ⟨[], cs.drop (cs.takeWhile p).length, (takeWhile_append_drop p cs).symm, rfl⟩

theorem standsAt_drop_takeWhile (p : Char → Bool) (cs : List Char) :
    StandsAt cs (cs.drop (cs.takeWhile p).length) (byteLength (cs.takeWhile p)) :=
  ⟨cs.takeWhile p, [], by rw [List.append_nil, takeWhile_append_drop], rfl⟩

/-- Behind the longest start of a text for which a property holds, it does not. -/
theorem eq_false_of_drop_takeWhile {p : Char → Bool} {cs rest : List Char} {c : Char}
    (h : cs.drop (cs.takeWhile p).length = c :: rest) : p c = false := by
  induction cs with
  | nil => cases h
  | cons d cs ih =>
      by_cases hd : p d = true
      · rw [List.takeWhile_cons_of_pos hd] at h
        exact ih h
      · rw [List.takeWhile_cons_of_neg hd] at h
        cases h
        exact Bool.eq_false_iff.mpr hd

theorem takeWhile_append_cons {p : Char → Bool} {cs rest : List Char} {c : Char}
    (hcs : ∀ d ∈ cs, p d = true) (hc : p c = false) : (cs ++ c :: rest).takeWhile p = cs := by
  rw [List.takeWhile_append_of_pos hcs, List.takeWhile_cons_of_neg (by simp [hc]), List.append_nil]

/-- A text is cut behind its longest start for which a property holds. -/
theorem exists_of_drop_takeWhile {p : Char → Bool} {cs rest : List Char} {c : Char}
    (h : cs.drop (cs.takeWhile p).length = c :: rest) :
    ∃ body, cs.takeWhile p = body ∧ cs = body ++ c :: rest ∧ (∀ d ∈ body, p d = true) ∧
      p c = false := by
  refine ⟨cs.takeWhile p, rfl, ?_, List.all_eq_true.mp List.all_takeWhile,
    eq_false_of_drop_takeWhile h⟩
  rw [← h, takeWhile_append_drop]

/-- A property holds throughout a text, or there is a first character that does not have it. -/
theorem forall_or_exists_first (p : Char → Bool) (cs : List Char) :
    (∀ c ∈ cs, p c = true) ∨
      ∃ run c rest, cs = run ++ c :: rest ∧ (∀ d ∈ run, p d = true) ∧ p c = false := by
  have hcs := takeWhile_append_drop p cs
  cases hdrop : cs.drop (cs.takeWhile p).length with
  | nil =>
      rw [hdrop, List.append_nil] at hcs
      left
      rw [← hcs]
      exact List.all_eq_true.mp List.all_takeWhile
  | cons c rest =>
      obtain ⟨run, -, hrun⟩ := exists_of_drop_takeWhile hdrop
      exact .inr ⟨run, c, rest, hrun⟩

/-- A text is its longest start for which a property holds, and the rest. -/
theorem exists_run (p : Char → Bool) (cs : List Char) :
    ∃ run rest, cs = run ++ rest ∧ cs.takeWhile p = run ∧ (∀ c ∈ run, p c = true) ∧
      rest.head?.any p = false := by
  rcases forall_or_exists_first p cs with hall | ⟨run, c, rest, rfl, hrun, hc⟩
  · have htake : (cs ++ []).takeWhile p = cs ++ [].takeWhile p := List.takeWhile_append_of_pos hall
    exact ⟨cs, [], (List.append_nil cs).symm, by simpa using htake, hall, rfl⟩
  · exact ⟨run, c :: rest, rfl, takeWhile_append_cons hrun hc, hrun, by simpa using hc⟩

theorem exists_cons_of_any_head? {p : Char → Bool} {cs : List Char} (h : cs.head?.any p = true) :
    ∃ c rest, cs = c :: rest ∧ p c = true := by
  cases cs with
  | nil => cases h
  | cons c rest => exact ⟨c, rest, rfl, h⟩

theorem space_not_mem_takeWhile {p : Char → Bool} (hp : p ' ' = false) (cs : List Char) :
    ' ' ∉ cs.takeWhile p := by
  intro h
  have htrue := List.all_eq_true.mp List.all_takeWhile ' ' h
  rw [hp] at htrue
  cases htrue

/-- A part without spaces. -/
structure WordAt (text word : List Char) (pos : Nat) : Prop where
  stands : StandsAt text word pos
  solid : ' ' ∉ word

theorem WordAt.trans {text inner word : List Char} {pos start : Nat} (h : WordAt inner word pos)
    (h' : StandsAt text inner start) : WordAt text word (pos + start) :=
  ⟨h.stands.trans h', h.solid⟩

end StackScript.Text
