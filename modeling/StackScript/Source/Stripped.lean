import StackScript.Diagnostic

/-! # Stripped source text

Comments and line breaks are taken out of a script before anything else. Each of them becomes a
single space, except that a line comment disappears and leaves its line break. Every character
that remains knows where it stood in the source. -/

namespace StackScript

/-- A character and the offset in the source that it comes from. -/
structure Placed where
  char : Char
  origin : Nat
  deriving DecidableEq, Repr

namespace Placed

/-- The characters of a text with their offsets, the first of which is `pos`. -/
def ofText (pos : Nat) : List Char → List Placed
  | [] => []
  | c :: cs => ⟨c, pos⟩ :: ofText (pos + c.utf8Size) cs

/-- A line break becomes a space. -/
def unbroken (p : Placed) : Placed :=
  if p.char = '\n' ∨ p.char = '\r' then { p with char := ' ' } else p

/-- The offsets of the bytes of a character. -/
def byteOrigins (p : Placed) : List Nat := (List.range p.char.utf8Size).map (p.origin + ·)

/-- Take line comments out. The newline that ends a comment stays. -/
def dropLineComments : (inside : Bool) → List Placed → List Placed
  | _, [] => []
  | true, p :: ps =>
      if p.char = '\n' then p :: dropLineComments false ps else dropLineComments true ps
  | false, p :: ps =>
      if p.char = '/' ∧ ps.head?.map Placed.char = some '/' then dropLineComments true ps
      else p :: dropLineComments false ps

/-- Replace block comments and line breaks by spaces. Inside a comment the offset where it was
opened is known, and it is the error if the comment is never closed. -/
def blankBlockComments : (opened : Option Nat) → List Placed → Except Nat (List Placed)
  | none, [] => .ok []
  | none, [p] => .ok [p.unbroken]
  | none, p :: q :: rest =>
      if p.char = '/' ∧ q.char = '*' then
        (blankBlockComments (some p.origin) rest).map (⟨' ', p.origin⟩ :: ·)
      else
        (blankBlockComments none (q :: rest)).map (p.unbroken :: ·)
  | some start, p :: q :: rest =>
      if p.char = '*' ∧ q.char = '/' then blankBlockComments none rest
      else blankBlockComments (some start) (q :: rest)
  | some start, _ => .error start

end Placed

/-- What is left of a source, and the length of the source in bytes. -/
structure Stripped where
  placed : List Placed
  sourceLength : Nat
  deriving DecidableEq, Repr

namespace Stripped

/-- Strip a source. Line comments go first, so that one inside a block comment can hide the mark
that would close the block. -/
def ofSource (source : List Char) : Except Diagnostic Stripped :=
  match Placed.blankBlockComments none (Placed.dropLineComments false (Placed.ofText 0 source)) with
  | .error start => .error ((Cause.unclosedBlockComment.at start).withLine source)
  | .ok placed => .ok ⟨placed, Text.byteLength source⟩

def text (s : Stripped) : List Char := s.placed.map Placed.char

/-- Offset in the source of each byte of the text. -/
def origins (s : Stripped) : List Nat := s.placed.flatMap Placed.byteOrigins

/-- Offset in the source of an offset in the text. The end of the text is the end of the
source. -/
def origin (s : Stripped) (pos : Nat) : Nat := s.origins[pos]?.getD s.sourceLength

/-- Carry a diagnostic for the text over to the source. -/
def locate (s : Stripped) (source : List Char) (d : Diagnostic) : Diagnostic :=
  (d.mapPos s.origin).withLine source

end Stripped

end StackScript
