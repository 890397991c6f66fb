import TypedJson.Schema.Basic
import TypedJson.Writer

/-! Writing a value of a schema. -/
namespace TypedJson

open Writer

mutual
def Schema.write : (schema : Schema) → schema.Value → Write Unit
  | .boolean, value => Writer.boolean value
  | .integer _, value => Writer.integer value.value
  | .real, value => Writer.real value
  | .string, value => Writer.string value
  | .binary _, value => Writer.binary value.toList
  | .enumeration names, index => Writer.enumeration index names
  | .array element, values => do
    openArray
    values.forM element.write
    closeArray
  | .object fields, record => do
    openObject
    fields.write record
    closeObject

/-- Writes the members in the order of the fields. -/
def Fields.write : (fields : Fields) → fields.Record → Write Unit
  | .nil, _ => pure ()
  | .cons name schema rest, (value, others) => do
    key name
    schema.write value
    rest.write others
end

end TypedJson
