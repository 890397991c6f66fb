/-! One-line summaries of records: the name of the record, then its members. -/
namespace TypedJson.Text

/-- A record's name and members; `elided` says that not all of its members are shown. -/
def summary (name : String) (members : List (String × String)) (elided : Bool) : String :=
  let shown := members.map fun (member, text) => member ++ ": " ++ text
  let parts := if elided then shown ++ [".."] else shown
  name ++ " \x7b " ++ ", ".intercalate parts ++ " \x7d"

end TypedJson.Text
