import TypedJson.Schema.Read
import TypedJson.Schema.Write

/-! Whole documents: decoding a value from one and encoding a value as one, by a schema or for a
type that comes with its schema. -/
namespace TypedJson

namespace Schema

/-- Decodes a complete document in place of `target`. -/
def decodeInto (options : Reader.Options) (schema : Schema) (target : schema.Value)
    (document : List UInt8) : Except Error schema.Value :=
  let whole : Read schema.Value := do
    let value ← schema.readInto options.depthLimit target
    Reader.finish options
    return value
  match whole.run (Reader.ofBytes document) with
  | .ok value _ => .ok value
  | .error error _ => .error error

/-- Decodes a complete document. -/
def decode (options : Reader.Options) (schema : Schema) (document : List UInt8) :
    Except Error schema.Value :=
  schema.decodeInto options schema.default document

/-- Encodes a value as a document without whitespace. -/
def encode (schema : Schema) (value : schema.Value) : Except Error (List UInt8) :=
  let whole : Write (List UInt8) := do
    schema.write value
    Writer.take
  match whole.run Writer.empty with
  | .ok document _ => .ok document
  | .error error _ => .error error

end Schema

/-- A type whose values are those of a schema. -/
class Codable (α : Type) where
  schema : Schema
  toValue : α → schema.Value
  ofValue : schema.Value → α
  ofValue_toValue (a : α) : ofValue (toValue a) = a

namespace Codable

/-- The values of a schema as a type of their own. -/
@[reducible] def ofSchema (schema : Schema) : Codable schema.Value where
  schema := schema
  toValue value := value
  ofValue value := value
  ofValue_toValue _ := rfl

def decode (α : Type) [Codable α] (options : Reader.Options) (document : List UInt8) : Except Error α :=
  ((schema α).decode options document).map ofValue

def encode {α : Type} [Codable α] (a : α) : Except Error (List UInt8) :=
  (schema α).encode (toValue a)

instance : Codable Bool where
  schema := .boolean
  toValue value := value
  ofValue value := value
  ofValue_toValue _ := rfl

instance : Codable String where
  schema := .string
  toValue value := value
  ofValue value := value
  ofValue_toValue _ := rfl

instance : Codable UInt32 where
  schema := .integer .uint32
  toValue n :=
    ⟨n.toNat, Int.natCast_nonneg _, by
      have := n.toNat_lt
      show (n.toNat : Int) ≤ 2 ^ 32 - 1
      omega⟩
  ofValue n := UInt32.ofNat n.value.toNat
  ofValue_toValue n := by simp

instance : Codable UInt64 where
  schema := .integer .uint64
  toValue n :=
    ⟨n.toNat, Int.natCast_nonneg _, by
      have := n.toNat_lt
      show (n.toNat : Int) ≤ 2 ^ 64 - 1
      omega⟩
  ofValue n := UInt64.ofNat n.value.toNat
  ofValue_toValue n := by simp

instance {α : Type} [Codable α] : Codable (List α) where
  schema := .array (schema α)
  toValue values := values.map toValue
  ofValue values := values.map ofValue
  ofValue_toValue values := by simp [Function.comp_def, ofValue_toValue]

end Codable

end TypedJson
