import StackScript.Token.Lexer

/-! # Literals as text

Whether a text as a whole is a number, with or without a minus sign in front. -/

namespace StackScript.Literal

/-- The text behind a minus sign, if it starts with one. -/
def unsigned : List Char → List Char
  | '-' :: cs => cs
  | cs => cs

/-- Digits and nothing else. -/
def isInteger (cs : List Char) : Bool :=
  let digits := unsigned cs
  !digits.isEmpty && digits.all Char.isDigit

/-- Digits with a decimal point, a suffix or both; there is a digit on one side of the point. -/
def isFloat (cs : List Char) : Bool :=
  let number := unsigned cs
  let suffixed := number.getLast?.any Lexeme.isSuffix
  let body := if suffixed then number.dropLast else number
  let whole := body.takeWhile (· != '.')
  match body.dropWhile (· != '.') with
  | [] => suffixed && !whole.isEmpty && whole.all Char.isDigit
  | _ :: fraction =>
      !(whole.isEmpty && fraction.isEmpty) && whole.all Char.isDigit && fraction.all Char.isDigit

/-- The number that decimal digits stand for. -/
def value (digits : List Char) : Nat :=
  digits.foldl (fun n c => 10 * n + (c.toNat - '0'.toNat)) 0

end StackScript.Literal
