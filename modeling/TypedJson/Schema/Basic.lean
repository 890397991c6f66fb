import TypedJson.Binary64.Basic
import TypedJson.Integer

/-! Schemas: what a value has to look like on the wire, and the type its values have in memory. -/
namespace TypedJson

mutual
/-- The form of a value. -/
inductive Schema where
  | boolean
  | integer (type : IntegerType)
  | real
  | string
  /-- A fixed number of bytes, as hexadecimal text. -/
  | binary (width : Nat)
  /-- A string out of `names`, given by its place there. -/
  | enumeration (names : List String)
  | array (element : Schema)
  | object (fields : Fields)

/-- The members of an object, in the order they are declared and written. -/
inductive Fields where
  | nil
  | cons (name : String) (schema : Schema) (rest : Fields)
end

deriving instance DecidableEq for Schema
deriving instance DecidableEq for Fields
deriving instance Repr for Schema
deriving instance Repr for Fields

mutual
/-- The values of a schema. An enumeration's place is not bounded by its names, nor is a number
finite: such values exist, but have no text. -/
@[reducible] def Schema.Value : Schema → Type
  | .boolean => Bool
  | .integer type => BoundedInt type
  | .real => Binary64
  | .string => String
  | .binary width => Vector UInt8 width
  | .enumeration _ => Nat
  | .array element => List element.Value
  | .object fields => fields.Record

/-- One value for each field. -/
@[reducible] def Fields.Record : Fields → Type
  | .nil => Unit
  | .cons _ schema rest => schema.Value × rest.Record
end

mutual
/-- The value a record holds before anything is read into it. -/
def Schema.default : (schema : Schema) → schema.Value
  | .boolean => false
  | .integer _ => .zero
  | .real => ⟨0⟩
  | .string => ""
  | .binary width => Vector.replicate width 0
  | .enumeration _ => (0 : Nat)
  | .array _ => []
  | .object fields => fields.default

def Fields.default : (fields : Fields) → fields.Record
  | .nil => ()
  | .cons _ schema rest => (schema.default, rest.default)
end

namespace Fields

@[reducible] def ofList : List (String × Schema) → Fields
  | [] => .nil
  | (name, schema) :: rest => .cons name schema (ofList rest)

def names : Fields → List String
  | .nil => []
  | .cons name _ rest => name :: rest.names

end Fields

namespace Schema

/-- An object with the given members. -/
@[reducible] def record (members : List (String × Schema)) : Schema := .object (.ofList members)

/-- The number of fields an object has to stay below. Names are looked up one after the other, which
suits small records only. -/
def fieldLimit : Nat := 100

end Schema

mutual
/-- Whether every object of a schema stays below the field limit. -/
def Schema.isSmall : Schema → Bool
  | .array element => element.isSmall
  | .object fields => fields.names.length < Schema.fieldLimit && fields.areSmall
  | _ => true

def Fields.areSmall : Fields → Bool
  | .nil => true
  | .cons _ schema rest => schema.isSmall && rest.areSmall
end

end TypedJson
