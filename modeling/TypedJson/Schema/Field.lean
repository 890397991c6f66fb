import TypedJson.Text.Quoted
import TypedJson.Text.Summary

/-! A field of a record as it is used: for reading, a place to read into, and for writing, a value to
write. Only its name is shown, for what is in it may be large. -/
namespace TypedJson

inductive FieldAccess where
  | read (name : String)
  | write (name : String)
deriving DecidableEq, Repr

namespace FieldAccess

def name : FieldAccess → String
  | read name => name
  | write name => name

/-- The kind of access and the name, on one line. -/
def summary (access : FieldAccess) : String :=
  let kind := match access with
    | read _ => "ReadField"
    | write _ => "WriteField"
  Text.summary kind [("name", Text.quoted access.name)] true

end FieldAccess

end TypedJson
