import TypedJson.Numeral

/-! The shortest decimal text of a double: the fewest digits that read back as the same number, and
of those the nearest to it. Digit counts are tried from one upward; with `n` digits only the two
neighbours of the number on the grid of `n`-digit decimals can be nearest. -/
namespace TypedJson.Binary64

/-- Which decimal of a grid writes a magnitude, if any reads back as `target`: the nearer of the
neighbours that do, and the upper one of two equally near. -/
def gridHit (target : Binary64) (value : Rat) (exponent : Int) : Option Decimal :=
  let scaled := value / (10 : Rat) ^ exponent
  let below : Decimal := ⟨target.negative, scaled.floor.toNat, exponent⟩
  let above : Decimal := ⟨target.negative, scaled.floor.toNat + 1, exponent⟩
  match below.toBinary64 == target, above.toBinary64 == target with
  | true, true => some (if scaled - scaled.floor < 1 / 2 then below else above)
  | true, false => some below
  | false, true => some above
  | false, false => none

/-- Tries grids whose last place is `exponent` and then each finer one, `finer` of them; the last is
exact. -/
def searchGrids (target : Binary64) (value : Rat) (exponent : Int) : Nat → Decimal
  | 0 => ⟨target.negative, (value / (10 : Rat) ^ exponent).floor.toNat, exponent⟩
  | finer + 1 =>
    match gridHit target value exponent with
    | some decimal => decimal
    | none => searchGrids target value (exponent - 1) finer

/-- The shortest decimal that reads back as a finite number. A magnitude is a multiple of
`2 ^ (-1074)`, so a grid no coarser than one and no finer than `10 ^ (-1074)` holds it exactly. -/
def shortest (x : Binary64) : Decimal :=
  if x.code = 0 then ⟨x.negative, 0, 0⟩
  else
    let leading := Rounding.log10 x.magnitude
    searchGrids x x.magnitude leading (leading + 1074).toNat

/-- Positional notation is used from `10 ^ (-4)` up to, but not including, `10 ^ 16`. -/
def lowestPositional : Int := -4

def pastPositional : Int := 16

/-- A run of digits with a point after the first `place` of them, and a digit on either side. -/
def positional (digits : List Char) (place : Int) : List Char :=
  if place ≤ 0 then "0.".toList ++ List.replicate place.natAbs '0' ++ digits
  else
    let whole := digits.take place.toNat
    let fraction := digits.drop place.toNat
    whole ++ List.replicate (place.toNat - whole.length) '0' ++ '.' ::
      (if fraction.isEmpty then ['0'] else fraction)

/-- A run of digits with a point after the first, if more follow, and a power of ten. -/
def scientific (digits : List Char) (exponent : Int) : List Char :=
  let fraction := digits.drop 1
  digits.take 1 ++ (if fraction.isEmpty then [] else '.' :: fraction) ++
    'e' :: (toString exponent).toList

/-- The text of a finite number. -/
def digitsText (x : Binary64) : List Char :=
  let decimal := x.shortest
  let all := Nat.toDigits 10 decimal.coefficient
  let leading := decimal.exponent + all.length - 1
  let significant := (all.reverse.dropWhile (· == '0')).reverse
  if decimal.coefficient = 0 then "0.0".toList
  else if lowestPositional ≤ leading ∧ leading < pastPositional then
    positional significant (leading + 1)
  else scientific significant leading

def text (x : Binary64) : List UInt8 :=
  (if x.negative then '-' :: x.digitsText else x.digitsText).map Char.toUInt8

/-- The name of a value that is not finite. -/
def nonFiniteName (x : Binary64) : String :=
  if x.isInfinite then (if x.negative then "-inf" else "inf") else "NaN"

end TypedJson.Binary64
