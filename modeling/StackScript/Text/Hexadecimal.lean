/-! # Hexadecimal numerals -/

namespace StackScript.Text

/-- Upper-case hexadecimal digits of a number, with zeros in front up to the given width. -/
def hexadecimal (width n : Nat) : String :=
  let digits := (Nat.toDigits 16 n).map Char.toUpper
  String.ofList (List.replicate (width - digits.length) '0' ++ digits)

/-- Offsets into bytecode are written with at least four digits. -/
def offsetNumeral (offset : Nat) : String := hexadecimal 4 offset

/-- Single bytes are written with a `0x` mark and two digits. -/
def byteNumeral (byte : UInt8) : String := "0x" ++ hexadecimal 2 byte.toNat

end StackScript.Text
