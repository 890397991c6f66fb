/-! Integers of fixed width. A value carries the proof that it is in the range of its type, so that
what is read needs no check when it is used and what is written needs none at all. -/
namespace TypedJson

inductive IntegerType where
  | uint8
  | uint16
  | uint32
  | uint64
  | usize
  | int8
  | int16
  | int32
  | int64
  | isize
deriving DecidableEq, Repr

namespace IntegerType

/-- The number of bits; a machine word has 64. -/
def width : IntegerType → Nat
  | .uint8 | .int8 => 8
  | .uint16 | .int16 => 16
  | .uint32 | .int32 => 32
  | .uint64 | .usize | .int64 | .isize => 64

def signed : IntegerType → Bool
  | .uint8 | .uint16 | .uint32 | .uint64 | .usize => false
  | .int8 | .int16 | .int32 | .int64 | .isize => true

/-- The number of values of the type. -/
def count (type : IntegerType) : Nat := 1 <<< type.width

/-- The least value of the type. Half of the values of a signed type are negative. -/
def lowest (type : IntegerType) : Int :=
  if type.signed then -(type.count / 2 : Nat) else 0

/-- The greatest value of the type. -/
def highest (type : IntegerType) : Int :=
  if type.signed then (type.count / 2 : Nat) - 1 else type.count - 1

theorem lowest_le_zero (type : IntegerType) : type.lowest ≤ 0 := by cases type <;> decide

theorem zero_le_highest (type : IntegerType) : 0 ≤ type.highest := by cases type <;> decide

end IntegerType

/-- An integer in the range of `type`. -/
structure BoundedInt (type : IntegerType) where
  value : Int
  lowest_le : type.lowest ≤ value
  le_highest : value ≤ type.highest
deriving DecidableEq, Repr

namespace BoundedInt

variable {type : IntegerType}

def zero : BoundedInt type := ⟨0, type.lowest_le_zero, type.zero_le_highest⟩

def ofInt? (value : Int) : Option (BoundedInt type) :=
  if low : type.lowest ≤ value then
    if high : value ≤ type.highest then some ⟨value, low, high⟩ else none
  else none

/-- The value itself if it is in range, and zero otherwise. -/
def narrow (value : Int) : BoundedInt type := (ofInt? value).getD zero

end BoundedInt

end TypedJson
