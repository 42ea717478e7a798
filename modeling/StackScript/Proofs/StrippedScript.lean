import StackScript.Context
import StackScript.Proofs.Stripping

/-! # Scripts and their stripped text

Compiling a script is compiling its stripped text, with the diagnostic carried over to the source.
The stripped text is a script as well, and there is nothing in it to strip. -/

namespace StackScript

/-! ## Offsets -/

namespace Stripped

theorem length_origins (s : Stripped) : s.origins.length = Text.byteLength s.text := by
  rw [origins, text]
  induction s.placed with
  | nil => rfl
  | cons p ps ih =>
      rw [List.flatMap_cons, List.length_append, ih, List.map_cons, Text.byteLength_cons,
        Placed.byteOrigins, List.length_map, List.length_range]

theorem origin_of_le (s : Stripped) {pos : Nat} (h : Text.byteLength s.text ≤ pos) :
    s.origin pos = s.sourceLength := by
  rw [origin, List.getElem?_eq_none (s.length_origins ▸ h), Option.getD_none]

/-- An offset in a text from which nothing was stripped stays the same. -/
theorem origin_ofPlain (text : List Char) {pos : Nat} (h : pos ≤ Text.byteLength text) :
    (ofPlain text).origin pos = pos := by
  rcases Nat.lt_or_eq_of_le h with hlt | heq
  · rw [origin, origins_ofPlain, List.getElem?_range hlt, Option.getD_some]
  · rw [origin_of_le _ (by rw [text_ofPlain, heq]), heq]
    rfl

/-- An offset past the end of the text is the end of it. -/
theorem origin_origin_ofPlain (s : Stripped) (pos : Nat) :
    s.origin ((ofPlain s.text).origin pos) = s.origin pos := by
  rcases Nat.le_total pos (Text.byteLength s.text) with hle | hge
  · rw [origin_ofPlain _ hle]
  · have hend : (ofPlain s.text).origin pos = Text.byteLength s.text :=
      origin_of_le _ (by rwa [text_ofPlain])
    rw [hend, s.origin_of_le (Nat.le_refl _), s.origin_of_le hge]

end Stripped

/-! ## Compiling stripped text -/

/-- The pieces of stripped text. -/
def Piece.ofText (text : List Char) : Except Diagnostic (List Piece) := do
  checkNesting text
  all text

namespace Context

/-- Compile stripped text from the start. Offsets in a diagnostic are offsets in the text. -/
def compileText (ctx : Context) (text : List Char) : Except Diagnostic Compilation × Context :=
  match Piece.ofText text with
  | .error d => (.error d, ctx.reset)
  | .ok pieces =>
      match ctx.reset.compilePieces pieces with
      | (.error d, ctx) => (.error d, ctx)
      | (.ok _, ctx) => (.ok ctx.compilation, ctx)

theorem compile_eq_compileText (ctx : Context) {source : List Char} {s : Stripped}
    (h : Stripped.ofSource source = .ok s) :
    ctx.compile source =
      ((ctx.compileText s.text).1.mapError (s.locate source), (ctx.compileText s.text).2) := by
  have hpieces : piecesOf source =
      ((Piece.ofText s.text).mapError (s.locate source)).map (s, ·) := by
    simp only [piecesOf, h, Piece.ofText, bind, Except.bind]
    cases checkNesting s.text with
    | error d => rfl
    | ok u => cases Piece.all s.text <;> rfl
  rw [compile, hpieces, compileText]
  cases Piece.ofText s.text with
  | error d => rfl
  | ok pieces =>
      simp only [Except.mapError, Except.map]
      rcases ctx.reset.compilePieces pieces with ⟨d | u, ctx'⟩ <;> rfl

end Context

/-- Two scripts came to the same compilation, or to the same cause; `origin` carries the offset of
the second diagnostic over to the first. -/
def SameOutcome (origin : Nat → Nat) :
    Except Diagnostic Compilation → Except Diagnostic Compilation → Prop
  | .ok c, .ok c' => c = c'
  | .error d, .error d' => d.cause = d'.cause ∧ d.pos = d'.pos.map origin
  | _, _ => False

/-- Stripping is idempotent, and a script compiles as its stripped text does. -/
theorem Context.compile_stripped (ctx : Context) {source : List Char} {s : Stripped}
    (h : Stripped.ofSource source = .ok s) :
    (∃ s' : Stripped, Stripped.ofSource s.text = .ok s' ∧ s'.text = s.text ∧
        s'.origins = List.range (Text.byteLength s.text) ∧
        ∀ pos ≤ Text.byteLength s.text, s'.origin pos = pos) ∧
      SameOutcome s.origin (ctx.compile source).1 (ctx.compile s.text).1 ∧
      (ctx.compile source).2 = (ctx.compile s.text).2 := by
  have htext := (Stripped.ofSource_of_eq_ok h).ofSource_text
  refine ⟨⟨Stripped.ofPlain s.text, htext, Stripped.text_ofPlain _, Stripped.origins_ofPlain _,
    fun pos => Stripped.origin_ofPlain s.text⟩, ?_⟩
  rw [ctx.compile_eq_compileText h, ctx.compile_eq_compileText htext, Stripped.text_ofPlain]
  refine ⟨?_, rfl⟩
  cases (ctx.compileText s.text).1 with
  | ok c => exact rfl
  | error d =>
      refine ⟨rfl, ?_⟩
      simp only [Stripped.locate, Diagnostic.withLine, Diagnostic.mapPos, Option.map_map]
      congr 1
      funext pos
      exact (s.origin_origin_ofPlain pos).symm

/-- A line comment, a block comment over two lines and an empty one stand before the fault. -/
theorem Context.compile_stripped_unknownCharacter :
    ∃ s d, Stripped.ofSource "int32 a; // one\n/* two\n*/a =/**/1 # 2;".toList = .ok s ∧
      s.text = "int32 a;   a = 1 # 2;".toList ∧
      (Context.compile { registry := .builtins } s.text).1 =
        .error ⟨.unknownCharacter '#', some 17, some 1⟩ ∧
      (Context.compile { registry := .builtins }
        "int32 a; // one\n/* two\n*/a =/**/1 # 2;".toList).1 = .error d ∧
      d.cause = .unknownCharacter '#' ∧ d.pos = some (s.origin 17) ∧ s.origin 17 = 34 := by
  have hstripped : ∃ s, Stripped.ofSource "int32 a; // one\n/* two\n*/a =/**/1 # 2;".toList =
      .ok s ∧ s.text = "int32 a;   a = 1 # 2;".toList ∧ s.origin 17 = 34 :=
    ⟨_, rfl, by decide +kernel, by decide +kernel⟩
  obtain ⟨s, hs, htext, horigin⟩ := hstripped
  have herror : (Context.compile { registry := .builtins } s.text).1 =
      .error ⟨.unknownCharacter '#', some 17, some 1⟩ := by
    rw [htext]
    decide +kernel
  obtain ⟨-, hsame, -⟩ := Context.compile_stripped { registry := .builtins } hs
  rw [herror] at hsame
  generalize hresult : (Context.compile { registry := .builtins }
    "int32 a; // one\n/* two\n*/a =/**/1 # 2;".toList).1 = result at hsame
  cases result with
  | ok c => exact hsame.elim
  | error d => exact ⟨s, d, hs, htext, herror, rfl, hsame.1, hsame.2, horigin⟩

end StackScript
