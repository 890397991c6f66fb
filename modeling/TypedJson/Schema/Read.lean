import TypedJson.Reader.Container
import TypedJson.Schema.Basic

/-! Reading a value of a schema over one that is already there. Nothing of the earlier value is left
when reading succeeds: lists are cleared first, and an object must supply every field. -/
namespace TypedJson

open Reader

mutual
/-- Reads a value of the schema in place of `target`. -/
def Schema.readInto (limit : Nat) : (schema : Schema) → schema.Value → Read schema.Value
  | .boolean, _ => Reader.boolean
  | .integer type, _ => integer type
  | .real, _ => Reader.real
  | .string, _ => Reader.string
  | .binary width, _ => Reader.binary width
  | .enumeration names, _ => Reader.enumeration names
  | .array element, _ => readArray limit (element.readInto limit element.default)
  | .object fields, target => readObject limit fields.names (fields.readAt limit) target

/-- Reads the value of the field at `index` in place of the one in the record. -/
def Fields.readAt (limit : Nat) : (fields : Fields) → Nat → fields.Record → Read fields.Record
  | .nil, _, record => pure record
  | .cons _ schema _, 0, (value, others) => do
    return (← schema.readInto limit value, others)
  | .cons _ _ rest, index + 1, (value, others) => do
    return (value, ← rest.readAt limit index others)
end

/-- Reads a value of the schema. -/
def Schema.read (limit : Nat) (schema : Schema) : Read schema.Value :=
  schema.readInto limit schema.default

end TypedJson
