import StackScript.Delimiter
import StackScript.Diagnostic
import StackScript.Text.Blank

/-! # The pieces of a script

At the top level a script is a sequence of functions, marked by `func:`, and of statements that
end with a semicolon. -/

namespace StackScript

inductive PieceKind where
  | function
  | statement
  deriving DecidableEq, Repr

structure Piece where
  kind : PieceKind
  /-- Offset of the piece in the text that it was cut from. -/
  start : Nat
  text : List Char
  deriving DecidableEq, Repr

namespace Piece

/-- Offset just past the piece. -/
def stop (piece : Piece) : Nat := piece.start + Text.byteLength piece.text

/-- The mark at the start of a function. -/
def functionMark : List Char := ['f', 'u', 'n', 'c', ':']

/-- Neither the start of a body nor the end of a statement. -/
def isHeaderChar (c : Char) : Bool := c != '\x7b' && c != ';'

/-- The function at the start of a text. Its body opens before any semicolon. -/
def function (start : Nat) (cs : List Char) : Except Diagnostic Piece :=
  let header := cs.takeWhile isHeaderChar
  match cs.drop header.length with
  | '\x7b' :: body =>
      match Delimiter.findClose Delimiter.brace body with
      | some index => .ok ⟨.function, start, cs.take (header.length + index + 2)⟩
      | none => .error (Cause.missingCurlyBrace.at (start + Text.byteLength header))
  | _ => .error (Cause.missingCurlyBrace.at start)

/-- The statement at the start of a text; `lastPos` is where a missing semicolon is reported. -/
def statement (lastPos start : Nat) (cs : List Char) : Except Diagnostic Piece :=
  let body := cs.takeWhile (· != ';')
  match cs.drop body.length with
  | [] => .error (Cause.missingSemicolon.at lastPos)
  | _ :: _ => .ok ⟨.statement, start, cs.take (body.length + 1)⟩

/-- The piece at the start of a text. -/
def first (lastPos start : Nat) (cs : List Char) : Except Diagnostic Piece :=
  if functionMark.isPrefixOf cs then function start cs else statement lastPos start cs

theorem length_pos_of_first {lastPos start : Nat} {c : Char} {cs : List Char} {piece : Piece}
    (h : first lastPos start (c :: cs) = .ok piece) : 0 < piece.text.length := by
  unfold first at h
  split at h
  · unfold function at h
    simp only at h
    split at h
    · split at h
      · cases h
        simp only [List.length_take, List.length_cons]
        omega
      · cases h
    · cases h
  · unfold statement at h
    simp only at h
    split at h
    · cases h
    · cases h
      simp only [List.length_take, List.length_cons]
      omega

/-- The pieces of a text that starts at `pos`. -/
def allFrom (lastPos pos : Nat) (cs : List Char) : Except Diagnostic (List Piece) :=
  let blanks := cs.takeWhile Text.isAsciiBlank
  match hcs : cs.drop blanks.length with
  | [] => .ok []
  | c :: rest =>
      match h : first lastPos (pos + Text.byteLength blanks) (c :: rest) with
      | .error d => .error d
      | .ok piece =>
          have hpos := length_pos_of_first h
          have hlen : (c :: rest).length ≤ cs.length := by
            rw [← hcs, List.length_drop]
            omega
          (allFrom lastPos piece.stop ((c :: rest).drop piece.text.length)).map (piece :: ·)
termination_by cs.length
decreasing_by
  simp only [List.length_drop, List.length_cons] at hlen ⊢
  omega

/-- Offset of the last byte before the white space at the end of a text. -/
def lastOffset (text : List Char) : Nat := Text.byteLength (Text.trimEnd text) - 1

/-- The pieces of a script, which must not be blank. -/
def all (text : List Char) : Except Diagnostic (List Piece) :=
  match allFrom (lastOffset text) 0 text with
  | .ok [] => .error { cause := .sourceInvalid }
  | result => result

end Piece

/-- Round brackets must match, and so must curly ones; each kind by itself. -/
def checkNesting (text : List Char) : Except Diagnostic Unit :=
  match Delimiter.imbalance? Delimiter.parenthesis text with
  | some i => .error (Cause.missingParenthesis.at (Text.byteLength (text.take i.index)))
  | none =>
      match Delimiter.imbalance? Delimiter.brace text with
      | some i => .error (Cause.missingCurlyBrace.at (Text.byteLength (text.take i.index)))
      | none => .ok ()

end StackScript
