/-! Rounding of exact rationals: logarithms rounded down, and quotients rounded to the nearest
integer. -/
namespace TypedJson.Rounding

/-- The integer `k` with `base ^ k ≤ value < base ^ (k + 1)`, for a positive value. `log` is the same
for natural numbers; those of numerator and denominator leave two candidates. -/
def floorLog (base : Nat) (log : Nat → Nat) (value : Rat) : Int :=
  let guess : Int := log value.num.natAbs - log value.den
  if (base : Rat) ^ guess ≤ value then guess else guess - 1

/-- The exponent of the leading bit of a positive value. -/
def log2 (value : Rat) : Int := floorLog 2 Nat.log2 value

/-- The exponent of the leading decimal digit of a positive value. -/
def log10 (value : Rat) : Int :=
  floorLog 10 (fun n => (Nat.toDigits 10 n).length - 1) value

/-- The nearest integer; a half goes to the even neighbour. -/
def halfEven (value : Rat) : Int :=
  let below := value.floor
  let rest := value - below
  if rest < 1 / 2 then below
  else if 1 / 2 < rest then below + 1
  else below + below % 2

end TypedJson.Rounding
