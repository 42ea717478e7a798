import StackScript.Binary32

/-! # Shortest decimal text of binary32 numbers

A finite number is written with the fewest significant digits that read back as the same number,
and of those with the decimal nearest to it. The text is positional, never with an exponent. -/

namespace StackScript.Binary32

/-- A positive rational number as numerator and denominator, compared by cross multiplication. -/
structure Ratio where
  num : Nat
  den : Nat

namespace Ratio

/-- `n * 2 ^ e`. -/
def scaled (n : Nat) (e : Int) : Ratio :=
  if 0 ≤ e then ⟨n <<< e.toNat, 1⟩ else ⟨n, 1 <<< (-e).toNat⟩

/-- `n * 10 ^ e`. -/
def decimal (n : Nat) (e : Int) : Ratio :=
  if 0 ≤ e then ⟨n * Nat.pow 10 e.toNat, 1⟩ else ⟨n, Nat.pow 10 (-e).toNat⟩

def le (a b : Ratio) : Bool := a.num * b.den ≤ b.num * a.den

def lt (a b : Ratio) : Bool := a.num * b.den < b.num * a.den

/-- The greatest integer `k` with `k * 10 ^ e ≤ a`. -/
def floorDecimal (a : Ratio) (e : Int) : Nat :=
  if 0 ≤ e then a.num / (a.den * Nat.pow 10 e.toNat)
  else a.num * Nat.pow 10 (-e).toNat / a.den

/-- Twice the middle of `a` and `b` is compared with twice `x`: is `b` at most as far from `x` as
`a`, for `a ≤ x ≤ b`? -/
def upperNearer (a x b : Ratio) : Bool :=
  -- b - x ≤ x - a
  b.num * a.den * x.den + a.num * b.den * x.den ≤ 2 * x.num * a.den * b.den

end Ratio

/-- The reals that round to a number: the number itself, the ends of the interval, and whether
the ends belong to it. -/
structure Interval where
  value : Ratio
  low : Ratio
  high : Ratio
  closed : Bool

/-- The interval of a positive finite number. Below a power of two the neighbours are closer. -/
def interval (cell : Cell) : Interval :=
  let field := exponentField cell
  let fraction := fractionField cell
  let significand := if field == 0 then fraction else hiddenBit + fraction
  let exponent : Int := if field == 0 then -149 else (field : Int) - 150
  let below := if fraction == 0 && 1 < field then 1 else 2
  { value := Ratio.scaled (4 * significand) (exponent - 2)
    low := Ratio.scaled (4 * significand - below) (exponent - 2)
    high := Ratio.scaled (4 * significand + 2) (exponent - 2)
    closed := significand % 2 == 0 }

namespace Interval

def mem (i : Interval) (x : Ratio) : Bool :=
  if i.closed then i.low.le x && x.le i.high else i.low.lt x && x.lt i.high

/-- A multiple of `10 ^ e` in the interval: the nearer neighbour of the value if both are in it,
the upper one in a tie. -/
def gridPoint? (i : Interval) (e : Int) : Option Nat :=
  let floor := i.value.floorDecimal e
  let lower := Ratio.decimal floor e
  let upper := Ratio.decimal (floor + 1) e
  match 0 < floor && i.mem lower, i.mem upper with
  | true, true => some (if Ratio.upperNearer lower i.value upper then floor + 1 else floor)
  | true, false => some floor
  | false, true => some (floor + 1)
  | false, false => none

/-- The coarsest decimal grid with a point in the interval, tried from exponent `e` downwards. -/
def coarsest (i : Interval) : Nat → Int → Nat × Int
  | 0, e => (i.value.floorDecimal e, e)
  | steps + 1, e =>
      match i.gridPoint? e with
      | some n => (n, e)
      | none => i.coarsest steps (e - 1)

end Interval

/-- Digits of `n * 10 ^ e` in positional notation. -/
def positional (n : Nat) (e : Int) : String :=
  let digits := Nat.toDigits 10 n
  if 0 ≤ e then String.ofList (digits ++ List.replicate e.toNat '0')
  else
    let places := (-e).toNat
    let padded := List.replicate (places + 1 - digits.length) '0' ++ digits
    let whole := padded.take (padded.length - places)
    String.ofList (whole ++ '.' :: padded.drop (padded.length - places))

/-- The text of a number. All binary32 numbers are below `10 ^ 39`, and a grid of `10 ^ -55` tells
any two of them apart. -/
def toText (cell : Cell) : String :=
  let sign := if isNegative cell then "-" else ""
  if isNaN cell then "NaN"
  else if isInfinite cell then sign ++ "inf"
  else if exponentField cell == 0 && fractionField cell == 0 then sign ++ "0"
  else
    let (n, e) := (interval cell).coarsest 94 39
    sign ++ positional n e

end StackScript.Binary32
