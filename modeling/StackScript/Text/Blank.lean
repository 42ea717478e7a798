/-! # White space

Three classes of blank characters are in use: those that separate tokens, those that separate the
pieces of a script, and the white space of Unicode. Each is contained in the next. -/

namespace StackScript.Text

/-- Blanks between tokens. -/
def isTokenBlank (c : Char) : Bool := c == ' ' || c == '\t' || c == '\r' || c == '\n'

/-- Blanks between the pieces of a script: a form feed counts as well. -/
def isAsciiBlank (c : Char) : Bool := isTokenBlank c || c == '\x0c'

/-- First and last code points of the ranges of the Unicode property `White_Space`. -/
def whiteSpaceRanges : List (Nat × Nat) :=
  [(0x09, 0x0d), (0x20, 0x20), (0x85, 0x85), (0xa0, 0xa0), (0x1680, 0x1680), (0x2000, 0x200a),
    (0x2028, 0x2029), (0x202f, 0x202f), (0x205f, 0x205f), (0x3000, 0x3000)]

/-- White space of Unicode. -/
def isWhiteSpace (c : Char) : Bool :=
  whiteSpaceRanges.any fun (first, last) => first ≤ c.toNat && c.toNat ≤ last

/-- The text without the white space at its end. -/
def trimEnd (cs : List Char) : List Char := (cs.reverse.dropWhile isWhiteSpace).reverse

/-- The text without the white space around it. -/
def trim (cs : List Char) : List Char := trimEnd (cs.dropWhile isWhiteSpace)

end StackScript.Text
