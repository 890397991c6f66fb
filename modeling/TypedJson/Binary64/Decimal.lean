import TypedJson.Binary64.Basic

/-! Decimal numbers `± coefficient * 10 ^ exponent`, and the double nearest to one. -/
namespace TypedJson

structure Decimal where
  negative : Bool
  coefficient : Nat
  exponent : Int
deriving DecidableEq, Repr

namespace Decimal

def magnitude (d : Decimal) : Rat := d.coefficient * (10 : Rat) ^ d.exponent

/-- The nearest double. A power of ten that settles the answer alone, past `10 ^ 310` or so small
that the whole number is below `10 ^ (-330)`, is not computed. -/
def toBinary64 (d : Decimal) : Binary64 :=
  if d.coefficient = 0 ∨ d.exponent + d.coefficient.log2 + 1 < -330 then .ofCode d.negative 0
  else if 310 < d.exponent then .ofCode d.negative Binary64.infinityCode
  else .ofCode d.negative (Binary64.nearestCode d.magnitude)

end Decimal

end TypedJson
