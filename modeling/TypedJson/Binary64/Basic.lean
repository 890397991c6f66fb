import TypedJson.Rounding

/-! Double-precision numbers as their 64 bits: a sign, eleven bits of exponent and 52 bits of
fraction. The code of a magnitude is the number its bits spell without the sign; codes are ordered
as the magnitudes are, so rounding up past the last fraction runs into the next exponent. -/
namespace TypedJson

structure Binary64 where
  bits : UInt64
deriving DecidableEq, Repr

namespace Binary64

/-- The place of the sign bit. -/
def signPlace : Nat := 1 <<< 63

/-- The number of fractions under one exponent. -/
def fractionCount : Nat := 1 <<< 52

/-- The code of infinity: every exponent bit set and no fraction. -/
def infinityCode : Nat := 2047 * fractionCount

def ofCode (negative : Bool) (code : Nat) : Binary64 :=
  ⟨UInt64.ofNat (code + if negative then signPlace else 0)⟩

def negative (x : Binary64) : Bool := signPlace ≤ x.bits.toNat

def code (x : Binary64) : Nat := x.bits.toNat % signPlace

def isFinite (x : Binary64) : Bool := x.code < infinityCode

def isInfinite (x : Binary64) : Bool := x.code = infinityCode

/-- The magnitude of a finite value. Below the first exponent there is no hidden bit. -/
def magnitude (x : Binary64) : Rat :=
  let exponent := x.code / fractionCount
  let fraction := x.code % fractionCount
  if exponent = 0 then fraction * (2 : Rat) ^ (-1074 : Int)
  else (fraction + fractionCount : Nat) * (2 : Rat) ^ ((exponent : Int) - 1075)

/-- The exponent of the last place of the values about as large as `value`. -/
def lastPlace (value : Rat) : Int := max (Rounding.log2 value - 52) (-1074)

/-- The code nearest to a positive value, a half going to the even one. What is past the greatest
finite magnitude becomes infinite. -/
def nearestCode (value : Rat) : Nat :=
  let place := lastPlace value
  let units := Rounding.halfEven (value / (2 : Rat) ^ place)
  min ((place + 1074).toNat * fractionCount + units.toNat) infinityCode

end Binary64

end TypedJson
