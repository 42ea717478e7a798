import StackScript.Cell

/-! # Binary32 numbers in cells

A cell read as a binary32 number has a sign bit, eight exponent bits and 23 fraction bits. The
conversions from and to integers are computed on these fields in exact arithmetic. -/

namespace StackScript.Binary32

/-- The weight of the sign bit. -/
def signBit : Nat := 1 <<< 31

/-- The weight of the leading bit of a significand, which has no place among the fraction bits. -/
def hiddenBit : Nat := 1 <<< 23

/-- The sign. -/
def isNegative (cell : Cell) : Bool := cell.msb

/-- The exponent field, with its bias of 127. -/
def exponentField (cell : Cell) : Nat := (cell.toNat >>> 23) % 256

/-- The fraction field. -/
def fractionField (cell : Cell) : Nat := cell.toNat % hiddenBit

def isNaN (cell : Cell) : Bool := exponentField cell == 255 && fractionField cell != 0

def isInfinite (cell : Cell) : Bool := exponentField cell == 255 && fractionField cell == 0

/-- `n / 2 ^ shift` rounded to the nearest integer; a half goes to the even neighbour. -/
def shiftRounded (n shift : Nat) : Nat :=
  let divisor := 1 <<< shift
  let quotient := n / divisor
  let twice := 2 * (n % divisor)
  if divisor < twice || (twice == divisor && quotient % 2 == 1) then quotient + 1 else quotient

/-- The bits of a positive integer, rounded to 24 significant bits. A significand that is rounded
up to the next power of two carries into the exponent field. -/
def magnitudeBits (n : Nat) : Nat :=
  if n == 0 then 0
  else
    let exponent := n.log2
    let significand :=
      if exponent ≤ 23 then n <<< (23 - exponent) else shiftRounded n (exponent - 23)
    (exponent + 127) * hiddenBit + (significand - hiddenBit)

/-- The binary32 number nearest to an integer; a tie goes to the even significand. -/
def ofInt (n : Int) : Cell :=
  BitVec.ofNat 32 (if n < 0 then signBit + magnitudeBits n.natAbs else magnitudeBits n.natAbs)

/-- The integer part of the magnitude of a finite number. -/
def truncatedMagnitude (cell : Cell) : Nat :=
  let exponent := exponentField cell
  let significand := hiddenBit + fractionField cell
  if exponent < 127 then 0
  else if 150 ≤ exponent then significand <<< (exponent - 150)
  else significand >>> (150 - exponent)

/-- The integer part of a number. What lies beyond the range of 32-bit integers becomes the
nearest one, and NaN becomes zero. -/
def toInt (cell : Cell) : Int :=
  if isNaN cell then 0
  else if isNegative cell then -((min (truncatedMagnitude cell) signBit : Nat) : Int)
  else (min (truncatedMagnitude cell) (signBit - 1) : Nat)

/-- Convert the integer in a cell to a binary32 number. -/
def ofIntCell (cell : Cell) : Cell := ofInt cell.toInt

/-- Convert the binary32 number in a cell to an integer. -/
def toIntCell (cell : Cell) : Cell := BitVec.ofInt 32 (toInt cell)

end StackScript.Binary32
