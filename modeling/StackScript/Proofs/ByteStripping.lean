import StackScript.Proofs.Stripping
import StackScript.Proofs.Utf8

/-! # Stripping bytes

Marks of comments and line breaks are ASCII, and no byte of another character is. So a source can be
stripped byte by byte: what is left are the bytes of the stripped text. -/

namespace StackScript

/-- A byte and the offset in the source that it comes from. -/
abbrev PlacedByte := UInt8 × Nat

namespace Ascii

def newline : UInt8 := 10
def carriageReturn : UInt8 := 13
def space : UInt8 := 32
def star : UInt8 := 42
def slash : UInt8 := 47

end Ascii

open Ascii

namespace PlacedByte

/-- A line break becomes a space. -/
def unbroken (p : PlacedByte) : PlacedByte :=
  if p.1 = newline ∨ p.1 = carriageReturn then (space, p.2) else p

/-- Take line comments out. The newline that ends a comment stays. -/
def dropLineComments : (inside : Bool) → List PlacedByte → List PlacedByte
  | _, [] => []
  | true, p :: ps =>
      if p.1 = newline then p :: dropLineComments false ps else dropLineComments true ps
  | false, p :: ps =>
      if p.1 = slash ∧ ps.head?.map Prod.fst = some slash then dropLineComments true ps
      else p :: dropLineComments false ps

/-- Replace block comments and line breaks by spaces. -/
def blankBlockComments : (opened : Option Nat) → List PlacedByte → Except Nat (List PlacedByte)
  | none, [] => .ok []
  | none, [p] => .ok [unbroken p]
  | none, p :: q :: rest =>
      if p.1 = slash ∧ q.1 = star then
        (blankBlockComments (some p.2) rest).map ((space, p.2) :: ·)
      else
        (blankBlockComments none (q :: rest)).map (unbroken p :: ·)
  | some start, p :: q :: rest =>
      if p.1 = star ∧ q.1 = slash then blankBlockComments none rest
      else blankBlockComments (some start) (q :: rest)
  | some start, _ => .error start

/-! ## One byte at a time -/

theorem blankBlockComments_none_cons (p : PlacedByte) (ps : List PlacedByte) :
    blankBlockComments none (p :: ps) =
      if p.1 = slash ∧ ps.head?.map Prod.fst = some star then
        (blankBlockComments (some p.2) ps.tail).map ((space, p.2) :: ·)
      else
        (blankBlockComments none ps).map (unbroken p :: ·) := by
  cases ps with
  | nil => simp [blankBlockComments, Except.map]
  | cons q rest => simp [blankBlockComments]

theorem blankBlockComments_some_cons (start : Nat) (p : PlacedByte) (ps : List PlacedByte) :
    blankBlockComments (some start) (p :: ps) =
      if p.1 = star ∧ ps.head?.map Prod.fst = some slash then blankBlockComments none ps.tail
      else blankBlockComments (some start) ps := by
  cases ps with
  | nil => simp [blankBlockComments]
  | cons q rest => simp [blankBlockComments]

/-! ## Bytes without marks -/

theorem dropLineComments_true_append {qs : List PlacedByte} (h : ∀ q ∈ qs, q.1 ≠ newline)
    (rest : List PlacedByte) :
    dropLineComments true (qs ++ rest) = dropLineComments true rest := by
  induction qs with
  | nil => rfl
  | cons q qs ih =>
      obtain ⟨hq, hqs⟩ := List.forall_mem_cons.mp h
      rw [List.cons_append, dropLineComments, if_neg hq, ih hqs]

theorem dropLineComments_false_append {qs : List PlacedByte} (h : ∀ q ∈ qs, q.1 ≠ slash)
    (rest : List PlacedByte) :
    dropLineComments false (qs ++ rest) = qs ++ dropLineComments false rest := by
  induction qs with
  | nil => rfl
  | cons q qs ih =>
      obtain ⟨hq, hqs⟩ := List.forall_mem_cons.mp h
      rw [List.cons_append, dropLineComments, if_neg (fun hmark => hq hmark.1), ih hqs,
        List.cons_append]

theorem blankBlockComments_none_append {qs : List PlacedByte} (h : ∀ q ∈ qs, q.1 ≠ slash)
    (rest : List PlacedByte) :
    blankBlockComments none (qs ++ rest) =
      (blankBlockComments none rest).map (qs.map unbroken ++ ·) := by
  induction qs with
  | nil =>
      rw [List.nil_append]
      cases blankBlockComments none rest <;> rfl
  | cons q qs ih =>
      obtain ⟨hq, hqs⟩ := List.forall_mem_cons.mp h
      rw [List.cons_append, blankBlockComments_none_cons, if_neg (fun hmark => hq hmark.1), ih hqs]
      cases blankBlockComments none rest <;> rfl

theorem blankBlockComments_some_append {start : Nat} {qs : List PlacedByte}
    (h : ∀ q ∈ qs, q.1 ≠ star) (rest : List PlacedByte) :
    blankBlockComments (some start) (qs ++ rest) = blankBlockComments (some start) rest := by
  induction qs with
  | nil => rfl
  | cons q qs ih =>
      obtain ⟨hq, hqs⟩ := List.forall_mem_cons.mp h
      rw [List.cons_append, blankBlockComments_some_cons, if_neg (fun hmark => hq hmark.1), ih hqs]

end PlacedByte

/-! ## Characters and their bytes -/

namespace Placed

/-- The bytes of a character with their offsets. -/
def bytes (p : Placed) : List PlacedByte := (String.utf8EncodeChar p.char).zipIdx p.origin

theorem map_fst_bytes (p : Placed) : p.bytes.map Prod.fst = String.utf8EncodeChar p.char :=
  List.zipIdx_map_fst _ _

theorem map_snd_bytes (p : Placed) : p.bytes.map Prod.snd = p.byteOrigins := by
  rw [bytes, List.zipIdx_map_snd, String.length_utf8EncodeChar, byteOrigins,
    List.range'_eq_map_range]

theorem fst_mem_of_mem_bytes {p : Placed} {q : PlacedByte} (h : q ∈ p.bytes) :
    q.1 ∈ String.utf8EncodeChar p.char :=
  map_fst_bytes p ▸ List.mem_map_of_mem h

/-- An ASCII byte is found in the character that it encodes and in no other. -/
theorem fst_ne_of_mem_bytes {p : Placed} {c : Char} {b : UInt8} (hb : b.toNat < 128)
    (hc : c.toNat = b.toNat) (hne : p.char ≠ c) {q : PlacedByte} (h : q ∈ p.bytes) : q.1 ≠ b := by
  rintro rfl
  have heq := Text.toNat_of_mem_utf8EncodeChar (fst_mem_of_mem_bytes h) hb
  exact hne (Char.toNat_inj.mp (heq.trans hc.symm))

theorem exists_bytes_eq_cons (p : Placed) : ∃ b rest, p.bytes = (b, p.origin) :: rest := by
  have hpos : 0 < (String.utf8EncodeChar p.char).length := by
    rw [String.length_utf8EncodeChar]
    exact p.char.utf8Size_pos
  rw [bytes]
  cases hencode : String.utf8EncodeChar p.char with
  | nil => rw [hencode] at hpos; cases hpos
  | cons b rest => exact ⟨b, _, rfl⟩

/-- A text starts with an ASCII character where its bytes start with the byte of it. -/
theorem head?_flatMap_bytes {c : Char} {b : UInt8} (hb : b.toNat < 128)
    (hc : String.utf8EncodeChar c = [b]) (hcb : c.toNat = b.toNat) (ps : List Placed) :
    (ps.flatMap bytes).head?.map Prod.fst = some b ↔ ps.head?.map Placed.char = some c := by
  cases ps with
  | nil => simp
  | cons p ps =>
      obtain ⟨first, rest, hbytes⟩ := p.exists_bytes_eq_cons
      simp only [List.flatMap_cons, hbytes, List.cons_append, List.head?_cons, Option.map_some,
        Option.some.injEq]
      constructor
      · rintro rfl
        by_contra hne
        exact fst_ne_of_mem_bytes hb hcb hne (hbytes ▸ List.mem_cons_self) rfl
      · rintro rfl
        rw [bytes, hc] at hbytes
        cases hbytes
        rfl

theorem head?_slash (ps : List Placed) :
    (ps.flatMap bytes).head?.map Prod.fst = some slash ↔ ps.head?.map Placed.char = some '/' :=
  head?_flatMap_bytes (by decide) (by decide) (by decide) ps

theorem head?_star (ps : List Placed) :
    (ps.flatMap bytes).head?.map Prod.fst = some star ↔ ps.head?.map Placed.char = some '*' :=
  head?_flatMap_bytes (by decide) (by decide) (by decide) ps

theorem bytes_slash {p : Placed} (h : p.char = '/') : p.bytes = [(slash, p.origin)] := by
  rw [bytes, h]
  rfl

theorem bytes_star {p : Placed} (h : p.char = '*') : p.bytes = [(star, p.origin)] := by
  rw [bytes, h]
  rfl

/-- Line breaks are bytes as well as characters. -/
theorem bytes_unbroken (p : Placed) : p.unbroken.bytes = p.bytes.map PlacedByte.unbroken := by
  by_cases hbreak : p.char = '\n' ∨ p.char = '\r'
  · rw [unbroken, if_pos hbreak, bytes, bytes]
    rcases hbreak with h | h <;> rw [h] <;> rfl
  · obtain ⟨hnewline, hreturn⟩ := not_or.mp hbreak
    rw [unbroken, if_neg hbreak]
    refine (List.map_id' p.bytes).symm.trans (List.map_congr_left fun q hq => ?_)
    refine (if_neg (not_or.mpr ⟨?_, ?_⟩)).symm
    · exact fst_ne_of_mem_bytes (by decide) (by decide) hnewline hq
    · exact fst_ne_of_mem_bytes (by decide) (by decide) hreturn hq

theorem dropLineComments_bytes (inside : Bool) (ps : List Placed) :
    PlacedByte.dropLineComments inside (ps.flatMap bytes) =
      (dropLineComments inside ps).flatMap bytes := by
  fun_induction dropLineComments inside ps with
  | case1 => rfl
  | case2 p ps hnewline ih =>
      have hbytes : p.bytes = [(newline, p.origin)] := by
        rw [bytes, hnewline]
        rfl
      rw [List.flatMap_cons, List.flatMap_cons, hbytes, ← ih]
      rfl
  | case3 p ps hnewline ih =>
      rw [List.flatMap_cons, PlacedByte.dropLineComments_true_append, ih]
      exact fun q => fst_ne_of_mem_bytes (by decide) (by decide) hnewline
  | case4 p ps hmark ih =>
      rw [List.flatMap_cons, bytes_slash hmark.1, List.singleton_append,
        PlacedByte.dropLineComments, if_pos ⟨rfl, (head?_slash ps).mpr hmark.2⟩, ih]
  | case5 p ps hmark ih =>
      rw [List.flatMap_cons, List.flatMap_cons]
      by_cases hslash : p.char = '/'
      · have hnext : ¬ (slash = slash ∧ (ps.flatMap bytes).head?.map Prod.fst = some slash) :=
          fun h => hmark ⟨hslash, (head?_slash ps).mp h.2⟩
        rw [bytes_slash hslash, List.singleton_append, PlacedByte.dropLineComments, if_neg hnext,
          ih, List.singleton_append]
      · rw [PlacedByte.dropLineComments_false_append, ih]
        exact fun q => fst_ne_of_mem_bytes (by decide) (by decide) hslash

/-- A character that does not open a comment is kept or becomes a space. -/
theorem blankBlockComments_none_bytes {p : Placed} {ps : List Placed}
    (hmark : ¬ (p.char = '/' ∧ ps.head?.map Placed.char = some '*')) :
    PlacedByte.blankBlockComments none (p.bytes ++ ps.flatMap bytes) =
      (PlacedByte.blankBlockComments none (ps.flatMap bytes)).map (p.unbroken.bytes ++ ·) := by
  by_cases hslash : p.char = '/'
  · have hnext : ¬ (slash = slash ∧ (ps.flatMap bytes).head?.map Prod.fst = some star) :=
      fun h => hmark ⟨hslash, (head?_star ps).mp h.2⟩
    rw [bytes_unbroken, bytes_slash hslash, List.singleton_append,
      PlacedByte.blankBlockComments_none_cons, if_neg hnext]
    rfl
  · rw [bytes_unbroken, PlacedByte.blankBlockComments_none_append]
    exact fun q => fst_ne_of_mem_bytes (by decide) (by decide) hslash

/-- A character that does not close the comment is passed over. -/
theorem blankBlockComments_some_bytes {start : Nat} {p : Placed} {ps : List Placed}
    (hmark : ¬ (p.char = '*' ∧ ps.head?.map Placed.char = some '/')) :
    PlacedByte.blankBlockComments (some start) (p.bytes ++ ps.flatMap bytes) =
      PlacedByte.blankBlockComments (some start) (ps.flatMap bytes) := by
  by_cases hstar : p.char = '*'
  · have hnext : ¬ (star = star ∧ (ps.flatMap bytes).head?.map Prod.fst = some slash) :=
      fun h => hmark ⟨hstar, (head?_slash ps).mp h.2⟩
    rw [bytes_star hstar, List.singleton_append, PlacedByte.blankBlockComments_some_cons,
      if_neg hnext]
  · rw [PlacedByte.blankBlockComments_some_append]
    exact fun q => fst_ne_of_mem_bytes (by decide) (by decide) hstar

theorem blankBlockComments_bytes (opened : Option Nat) (ps : List Placed) :
    PlacedByte.blankBlockComments opened (ps.flatMap bytes) =
      (blankBlockComments opened ps).map (·.flatMap bytes) := by
  have hcons : ∀ (x : Except Nat (List Placed)) (p : Placed),
      (x.map (·.flatMap bytes)).map (p.bytes ++ ·) = (x.map (p :: ·)).map (·.flatMap bytes) := by
    intro x p
    cases x <;> rfl
  fun_induction blankBlockComments opened ps with
  | case1 => rfl
  | case2 p =>
      rw [List.flatMap_cons, blankBlockComments_none_bytes (by simp)]
      simp [PlacedByte.blankBlockComments, Except.map]
  | case3 p q rest hmark ih =>
      rw [List.flatMap_cons, List.flatMap_cons, bytes_slash hmark.1, bytes_star hmark.2,
        ← hcons, ← ih]
      simp only [List.singleton_append, PlacedByte.blankBlockComments, and_self, if_true]
      rfl
  | case4 p q rest hmark ih =>
      rw [List.flatMap_cons, blankBlockComments_none_bytes (by simpa using hmark), ih, hcons]
  | case5 start p q rest hmark ih =>
      rw [List.flatMap_cons, List.flatMap_cons, bytes_star hmark.1, bytes_slash hmark.2, ← ih]
      simp only [List.singleton_append, PlacedByte.blankBlockComments, and_self, if_true]
  | case6 start p q rest hmark ih =>
      rw [List.flatMap_cons, blankBlockComments_some_bytes (by simpa using hmark), ih]
  | case7 ps start hshort =>
      cases ps with
      | nil => rfl
      | cons p rest =>
          cases rest with
          | nil =>
              rw [List.flatMap_cons, blankBlockComments_some_bytes (by simp)]
              rfl
          | cons q rest => exact absurd rfl (hshort p q rest)

/-- The bytes of a text in their places. -/
theorem flatMap_bytes_ofText (pos : Nat) (cs : List Char) :
    (ofText pos cs).flatMap bytes = (Text.utf8 cs).zipIdx pos := by
  induction cs generalizing pos with
  | nil => rfl
  | cons c cs ih =>
      rw [ofText, List.flatMap_cons, ih, Text.utf8_cons, List.zipIdx_append,
        String.length_utf8EncodeChar]
      rfl

end Placed

/-- Strip the bytes of a source. -/
def stripBytes (source : Bytes) : Except Nat (List PlacedByte) :=
  PlacedByte.blankBlockComments none (PlacedByte.dropLineComments false source.zipIdx)

theorem stripBytes_utf8 (source : List Char) :
    stripBytes (Text.utf8 source) =
      (Placed.blankBlockComments none
        (Placed.dropLineComments false (Placed.ofText 0 source))).map (·.flatMap Placed.bytes) := by
  rw [stripBytes, ← Placed.flatMap_bytes_ofText, Placed.dropLineComments_bytes,
    Placed.blankBlockComments_bytes]

namespace Stripped

theorem map_fst_flatMap_bytes (s : Stripped) :
    (s.placed.flatMap Placed.bytes).map Prod.fst = Text.utf8 s.text := by
  rw [List.map_flatMap, Text.utf8, text, List.flatMap_map]
  exact List.flatMap_congr fun p _ => p.map_fst_bytes

theorem map_snd_flatMap_bytes (s : Stripped) :
    (s.placed.flatMap Placed.bytes).map Prod.snd = s.origins := by
  rw [List.map_flatMap, origins]
  exact List.flatMap_congr fun p _ => p.map_snd_bytes

end Stripped

/-- Strip a source by its bytes. What is left of them has to be text, or else the source is
refused. With the text go the offsets that its bytes come from. -/
def stripText (source : List Char) : Except Diagnostic (String × List Nat) :=
  match stripBytes (Text.utf8 source) with
  | .error start => .error ((Cause.unclosedBlockComment.at start).withLine source)
  | .ok left =>
      match String.fromUTF8? (left.map Prod.fst).toByteArray with
      | none => .error { cause := .sourceInvalid }
      | some text => .ok (text, left.map Prod.snd)

/-- The bytes of a text are read as this text. -/
theorem fromUTF8?_utf8 (cs : List Char) :
    String.fromUTF8? (Text.utf8 cs).toByteArray = some (String.ofList cs) := by
  have hbytes : (Text.utf8 cs).toByteArray = (String.ofList cs).toByteArray := by
    simpa using Text.toByteArray_utf8 (String.ofList cs)
  rw [hbytes]
  exact dif_pos (String.ofList cs).isValidUTF8

/-- No source is refused for what is left of its bytes. -/
theorem stripText_eq (source : List Char) :
    stripText source =
      (Stripped.ofSource source).map fun s => (String.ofList s.text, s.origins) := by
  unfold stripText Stripped.ofSource
  rw [stripBytes_utf8]
  cases Placed.blankBlockComments none
      (Placed.dropLineComments false (Placed.ofText 0 source)) with
  | error start => rfl
  | ok placed =>
      simp only [Except.map]
      rw [Stripped.map_fst_flatMap_bytes ⟨placed, Text.byteLength source⟩,
        Stripped.map_snd_flatMap_bytes ⟨placed, Text.byteLength source⟩, fromUTF8?_utf8]

end StackScript
