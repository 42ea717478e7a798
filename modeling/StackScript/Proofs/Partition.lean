import Mathlib.Data.List.TakeWhile
import StackScript.Proofs.Bodies
import StackScript.Proofs.Spans

/-! # How a script is cut

The pieces of a text lie in it with nothing but white space between them, and the body that is found
in the text of a function is the one by which the function was delimited. A text that is not cut
has no piece at all, or it comes to a piece that does not end. -/

namespace StackScript.Piece

open Delimiter

variable {lastPos start pos : Nat} {cs text : List Char} {pieces : List Piece} {d : Diagnostic}

/-! ## Where pieces lie -/

/-- The white space of ASCII. -/
def blankBytes : Bytes := [0x20, 0x09, 0x0a, 0x0c, 0x0d]

def part (piece : Piece) : Text.Part := ⟨piece.start, piece.text⟩

theorem mem_blankBytes {c : Char} (h : Text.isAsciiBlank c = true) :
    ∀ byte ∈ String.utf8EncodeChar c, byte ∈ blankBytes := by
  simp only [Text.isAsciiBlank, Text.isTokenBlank, Bool.or_eq_true, beq_iff_eq] at h
  rcases h with (((rfl | rfl) | rfl) | rfl) | rfl <;> simp [blankBytes, String.utf8EncodeChar]

theorem Cuts.laidOut (h : Cuts pos cs pieces) :
    Text.LaidOut blankBytes pos cs (pieces.map part) := by
  induction h with
  | nil => exact .nil
  | blank hc _ ih => exact .blank (mem_blankBytes hc) ih
  | @piece piece rest pieces hshape _ ih =>
      obtain ⟨c, cs, htext, -⟩ := hshape.exists_cons
      refine @Text.LaidOut.part _ piece.part rest _ ?_ ih
      rw [part, htext]
      exact List.cons_ne_nil c cs

/-! ## What pieces look like -/

/-- The text of a statement. -/
structure IsStatement (text : List Char) : Prop where
  unmarked : ¬ functionMark <+: text
  once : text.count ';' = 1
  last : text.getLast? = some ';'

/-- The text before the first curly bracket. -/
def header (text : List Char) : List Char := text.takeWhile (· != '\x7b')

/-- The text of a function. Its first curly bracket and its last character are a pair, and they are
where its body starts and ends. -/
structure IsFunction (text : List Char) : Prop where
  marked : functionMark <+: text
  unended : ';' ∉ header text
  last : text.getLast? = some '\x7d'
  paired : ∃ inner, text = header text ++ '\x7b' :: (inner ++ ['\x7d']) ∧ IsBalanced brace inner
  located : ∃ body, Body.locate text = .ok body ∧ body.start = Text.byteLength (header text) ∧
    body.stop = Text.byteLength text

/-- The text is cut into the pieces. -/
structure IsCut (text : List Char) (pieces : List Piece) : Prop where
  partition : Text.IsPartition blankBytes text (pieces.map part)
  statement : ∀ piece ∈ pieces, piece.kind = .statement → IsStatement piece.text
  function : ∀ piece ∈ pieces, piece.kind = .function → IsFunction piece.text

theorem Shape.isStatement (h : Shape .statement text) : IsStatement text := by
  cases h with
  | @statement body _ hmark hbody =>
      refine ⟨fun hprefix => hmark (prefix_of_append_cons hprefix (by decide)), ?_, ?_⟩
      · rw [List.count_append, List.count_eq_zero_of_not_mem hbody]
        rfl
      · exact List.getLast?_concat

theorem Shape.isFunction (h : Shape .function text) : IsFunction text := by
  cases h with
  | @function name inner hname hinner =>
      have hheader := isHeaderChar_of_mark_append hname
      have htake : header (functionMark ++ name ++ '\x7b' :: (inner ++ ['\x7d'])) =
          functionMark ++ name :=
        Text.takeWhile_append_cons (fun c hc => ((Bool.and_eq_true _ _).mp (hheader c hc)).1) rfl
      refine ⟨?_, ?_, ?_, ⟨inner, by rw [htake], hinner⟩,
        ⟨⟨functionMark ++ name, inner⟩, Body.locate_function hheader hinner, ?_, ?_⟩⟩
      · exact ⟨name ++ '\x7b' :: (inner ++ ['\x7d']), by rw [List.append_assoc]⟩
      · rw [htake]
        exact fun hmem => absurd (hheader ';' hmem) (by decide)
      · rw [← List.cons_append, ← List.append_assoc, List.getLast?_concat]
      · rw [htake]
        rfl
      · have hopen : '\x7b'.utf8Size = 1 := rfl
        have hclose : '\x7d'.utf8Size = 1 := rfl
        simp only [Body.stop, Body.start, Text.byteLength_append, Text.byteLength_cons,
          Text.byteLength_nil, hopen, hclose]
        omega

theorem Cuts.isCut (h : Cuts 0 text pieces) : IsCut text pieces where
  partition := h.laidOut.isPartition
  statement piece hpiece hkind := Shape.isStatement (hkind ▸ h.shape piece hpiece)
  function piece hpiece hkind := Shape.isFunction (hkind ▸ h.shape piece hpiece)

/-! ## Pieces that do not end -/

/-- The text starts a piece that is not complete: a statement without a semicolon, or a function
whose body does not open before a semicolon or is never closed. -/
inductive Unfinished (lastPos start : Nat) : List Char → Diagnostic → Prop where
  | statement {cs : List Char} :
      ¬ functionMark <+: cs → ';' ∉ cs →
      Unfinished lastPos start cs (Cause.missingSemicolon.at lastPos)
  | header {cs : List Char} :
      functionMark <+: cs → '\x7b' ∉ cs.takeWhile (· != ';') →
      Unfinished lastPos start cs (Cause.missingCurlyBrace.at start)
  | body {header rest : List Char} :
      functionMark <+: header → (∀ c ∈ header, isHeaderChar c = true) →
      (∀ inner behind, rest = inner ++ '\x7d' :: behind → ¬ IsBalanced brace inner) →
      Unfinished lastPos start (header ++ '\x7b' :: rest)
        (Cause.missingCurlyBrace.at (start + Text.byteLength header))

theorem statement_eq_error_iff :
    statement lastPos start cs = .error d ↔ ';' ∉ cs ∧ d = Cause.missingSemicolon.at lastPos := by
  by_cases hmem : ';' ∈ cs
  · obtain ⟨body, rest, rfl, hbody⟩ := List.eq_append_cons_of_mem hmem
    rw [statement_eq_ok_iff.mpr ⟨body, rest, rfl, hbody, rfl⟩]
    simp
  · have hall : ∀ c ∈ cs, (c != ';') = true := by
      intro c hc
      rw [bne_iff_ne]
      rintro rfl
      exact hmem hc
    simp only [statement, List.takeWhile_eq_self_iff.mpr hall, List.drop_length,
      Except.error.injEq, hmem, not_false_eq_true, true_and, eq_comm]

/-- A body is closed if some closing bracket is the partner of the opening one. -/
theorem findClose_eq_none_iff :
    findClose brace cs = none ↔
      ∀ inner behind, cs = inner ++ '\x7d' :: behind → ¬ IsBalanced brace inner := by
  rw [Option.eq_none_iff_forall_ne_some]
  constructor
  · rintro h inner behind rfl hinner
    exact h inner.length ((findCloseFrom_eq_some_iff 0 _ _).mpr
      ⟨inner, '\x7d', behind, rfl, rfl, brace_eq_closing.mpr rfl, hinner⟩)
  · intro h index hindex
    obtain ⟨inner, last, behind, rfl, -, hlast, hinner⟩ :=
      (findCloseFrom_eq_some_iff 0 index cs).mp hindex
    rw [brace_eq_closing] at hlast
    subst hlast
    exact h inner behind rfl hinner

theorem function_of_unopened (h : '\x7b' ∉ cs.takeWhile (· != ';')) :
    function start cs = .error (Cause.missingCurlyBrace.at start) := by
  simp only [function]
  split
  · rename_i body hbody
    obtain ⟨header, -, rfl, hheader, -⟩ := Text.exists_of_drop_takeWhile hbody
    refine absurd ?_ h
    rw [List.takeWhile_append_of_pos fun c hc => ((Bool.and_eq_true _ _).mp (hheader c hc)).2]
    exact List.mem_append_right _ List.mem_cons_self
  · rfl

theorem function_of_unclosed {header rest : List Char}
    (hheader : ∀ c ∈ header, isHeaderChar c = true) (h : findClose brace rest = none) :
    function start (header ++ '\x7b' :: rest) =
      .error (Cause.missingCurlyBrace.at (start + Text.byteLength header)) := by
  have htake : (header ++ '\x7b' :: rest).takeWhile isHeaderChar = header :=
    Text.takeWhile_append_cons hheader rfl
  simp only [function, htake, List.drop_left, h]

/-- The text before the first semicolon is cut at its first curly bracket. -/
theorem exists_header (h : '\x7b' ∈ cs.takeWhile (· != ';')) :
    ∃ header rest, cs = header ++ '\x7b' :: rest ∧ ∀ c ∈ header, isHeaderChar c = true := by
  obtain ⟨header, more, htake, hheader⟩ := List.eq_append_cons_of_mem h
  have hcs := Text.takeWhile_append_drop (· != ';') cs
  have hall : ∀ c ∈ cs.takeWhile (· != ';'), (c != ';') = true :=
    List.all_eq_true.mp List.all_takeWhile
  rw [htake] at hcs hall
  refine ⟨header, _, by rw [← hcs, List.append_assoc, List.cons_append], fun c hc => ?_⟩
  refine (Bool.and_eq_true _ _).mpr ⟨?_, hall c (List.mem_append_left _ hc)⟩
  rw [bne_iff_ne]
  rintro rfl
  exact hheader hc

theorem function_eq_error_iff (hmark : functionMark <+: cs) :
    function start cs = .error d ↔ Unfinished lastPos start cs d := by
  constructor
  · intro h
    by_cases hopen : '\x7b' ∈ cs.takeWhile (· != ';')
    · obtain ⟨header, rest, rfl, hheader⟩ := exists_header hopen
      cases hclose : findClose brace rest with
      | none =>
          rw [function_of_unclosed hheader hclose] at h
          cases h
          exact .body (prefix_of_append_cons hmark (by decide)) hheader
            (findClose_eq_none_iff.mp hclose)
      | some index =>
          obtain ⟨inner, last, behind, rfl, -, hlast, hinner⟩ :=
            (findCloseFrom_eq_some_iff 0 index rest).mp hclose
          obtain rfl := brace_eq_closing.mp hlast
          rw [function_eq_ok_iff.mpr ⟨header, inner, behind, rfl, hheader, hinner, rfl⟩] at h
          cases h
    · rw [function_of_unopened hopen] at h
      cases h
      exact .header hmark hopen
  · intro h
    cases h with
    | statement hmark' _ => exact absurd hmark hmark'
    | header _ hopen => exact function_of_unopened hopen
    | body _ hheader hclose =>
        exact function_of_unclosed hheader (findClose_eq_none_iff.mpr hclose)

theorem first_eq_error_iff :
    first lastPos start cs = .error d ↔ Unfinished lastPos start cs d := by
  simp only [first, List.isPrefixOf_iff_prefix]
  split
  · rename_i hmark
    exact function_eq_error_iff hmark
  · rename_i hmark
    rw [statement_eq_error_iff]
    constructor
    · rintro ⟨hmem, rfl⟩
      exact .statement hmark hmem
    · intro h
      cases h with
      | statement _ hmem => exact ⟨hmem, rfl⟩
      | header hmark' _ => exact absurd hmark' hmark
      | body hmark' _ _ => exact absurd (hmark'.trans (List.prefix_append _ _)) hmark

/-! ## Texts that are not cut -/

/-- There is no piece in the text, or the first piece behind those that are complete does not
end. -/
inductive Uncut (text : List Char) : Diagnostic → Prop where
  | blank : (∀ c ∈ text, Text.isAsciiBlank c = true) → Uncut text { cause := .sourceInvalid }
  | piece {front rest : List Char} {c : Char} {pieces : List Piece} {d : Diagnostic} :
      text = front ++ c :: rest → Cuts 0 front pieces → Text.isAsciiBlank c = false →
      Unfinished (lastOffset text) (Text.byteLength front) (c :: rest) d → Uncut text d

theorem cuts_nil_iff : Cuts pos cs [] ↔ ∀ c ∈ cs, Text.isAsciiBlank c = true := by
  constructor
  · intro h
    generalize hpieces : [] = pieces at h
    induction h with
    | nil => simp
    | blank hc _ ih => exact List.forall_mem_cons.mpr ⟨hc, ih hpieces⟩
    | piece => cases hpieces
  · intro h
    rw [← List.append_nil cs]
    exact .blanks h .nil

/-- The search stops at a piece that does not end. -/
theorem allFrom_of_first_error {c : Char} (hc : Text.isAsciiBlank c = false)
    (h : first lastPos pos (c :: cs) = .error d) : allFrom lastPos pos (c :: cs) = .error d := by
  have hblanks : (c :: cs).takeWhile Text.isAsciiBlank = [] :=
    List.takeWhile_cons_of_neg (by simp [hc])
  rw [allFrom_of_drop_cons (by rw [hblanks]; rfl), hblanks, Text.byteLength_nil, Nat.add_zero, h]
  rfl

/-- What stands before a piece that does not end is cut. -/
theorem exists_of_allFrom_error (h : allFrom lastPos pos cs = .error d) :
    ∃ front c rest pieces, cs = front ++ c :: rest ∧ Cuts pos front pieces ∧
      Text.isAsciiBlank c = false ∧
      first lastPos (pos + Text.byteLength front) (c :: rest) = .error d := by
  fun_induction allFrom lastPos pos cs
  case case1 => cases h
  case case2 =>
    rename_i pos cs _ c rest hcs d' hfirst
    cases h
    obtain ⟨blanks, hblanks, rfl, hall, hc⟩ := Text.exists_of_drop_takeWhile hcs
    exact ⟨blanks, c, rest, [], rfl, cuts_nil_iff.mpr hall, hc, hblanks ▸ hfirst⟩
  case case3 =>
    rename_i pos cs _ c rest hcs piece hfirst _ _ ih
    obtain ⟨blanks, hblanks, rfl, hall, hc⟩ := Text.exists_of_drop_takeWhile hcs
    obtain ⟨hstart, hshape, behind, hbehind⟩ := shape_of_first hc hfirst
    obtain ⟨front, c', rest', pieces, hrest, hcuts, hc', herror⟩ := ih (map_eq_error_iff.mp h)
    rw [← hbehind, List.drop_left] at hrest
    subst hrest
    have hstart : piece.start = pos + Text.byteLength blanks :=
      hstart.trans (congrArg (pos + Text.byteLength ·) hblanks)
    have hstop : piece.stop + Text.byteLength front =
        pos + Text.byteLength (blanks ++ (piece.text ++ front)) := by
      rw [stop, hstart, Text.byteLength_append, Text.byteLength_append]
      omega
    refine ⟨blanks ++ (piece.text ++ front), c', rest', piece :: pieces, ?_, ?_, hc', ?_⟩
    · rw [← hbehind, List.append_assoc, List.append_assoc]
    · exact .blanks hall (hstart ▸ .piece hshape hcuts)
    · rw [← hstop]
      exact herror

theorem all_eq_error_iff : all text = .error d ↔ Uncut text d := by
  constructor
  · intro h
    unfold all at h
    split at h
    · rename_i hnil
      cases h
      exact .blank (cuts_nil_iff.mp (cuts_of_allFrom hnil))
    · obtain ⟨front, c, rest, pieces, htext, hcuts, hc, hfirst⟩ := exists_of_allFrom_error h
      rw [Nat.zero_add] at hfirst
      exact .piece htext hcuts hc (first_eq_error_iff.mp hfirst)
  · intro h
    cases h with
    | blank hblank => rw [all, allFrom_eq_ok_iff.mpr (cuts_nil_iff.mpr hblank)]
    | @piece front rest c pieces d htext hcuts hc hpiece =>
        have herror := allFrom_of_first_error hc (first_eq_error_iff.mpr hpiece)
        have hall := hcuts.allFrom_append (lastOffset text) (c :: rest)
        rw [Nat.zero_add, herror, ← htext] at hall
        rw [all, hall]
        rfl

/-- A text is cut into pieces, unless it is blank or comes to a piece that does not end. -/
theorem all_isCut_or_uncut (text : List Char) :
    (∀ pieces, all text = .ok pieces → IsCut text pieces) ∧
      ∀ d, all text = .error d ↔ Uncut text d :=
  ⟨fun _ h => (all_eq_ok_iff.mp h).1.isCut, fun _ => all_eq_error_iff⟩

/-- Semicolons and brackets in a body do not end a function, while a semicolon before the body
does. -/
theorem all_isCut_or_uncut_semicolons :
    IsCut "é = 1;\x0cfunc: f() \x7b ;\x7b\x7d é; \x7d ;".toList
        [⟨.statement, 0, "é = 1;".toList⟩,
          ⟨.function, 8, "func: f() \x7b ;\x7b\x7d é; \x7d".toList⟩,
          ⟨.statement, 30, ";".toList⟩] ∧
      Uncut "a; func: f(); \x7b\x7d".toList (Cause.missingCurlyBrace.at 3) :=
  ⟨(all_isCut_or_uncut _).1 _ (toOption_eq_some_iff.mp (by decide +kernel)),
    ((all_isCut_or_uncut _).2 _).mp (by decide +kernel)⟩

end StackScript.Piece
