import StackScript.Text.Glyphless

/-! # Quoted text

Strings are shown in double quotes and single characters in single ones. The quote itself, the
backslash and what cannot be seen on a page are escaped. -/

namespace StackScript.Text

/-- One character between the given quotes. -/
def escaped (quote c : Char) : List Char :=
  if c = '\x00' then ['\\', '0']
  else if c = '\t' then ['\\', 't']
  else if c = '\r' then ['\\', 'r']
  else if c = '\n' then ['\\', 'n']
  else if c = '\\' ∨ c = quote then ['\\', c]
  else if isGlyphless c then
    ['\\', 'u', '\x7b'] ++ Nat.toDigits 16 c.toNat ++ ['\x7d']
  else [c]

/-- A text between the given quotes. -/
def quotedWith (quote : Char) (cs : List Char) : String :=
  String.ofList (quote :: cs.flatMap (escaped quote) ++ [quote])

def quoted (text : String) : String := quotedWith '"' text.toList

def quotedChar (c : Char) : String := quotedWith '\'' [c]

end StackScript.Text
