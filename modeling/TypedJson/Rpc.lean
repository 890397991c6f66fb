import TypedJson.Codec
import TypedJson.Text.Quoted
import TypedJson.Text.Summary

/-! Remote procedure calls by JSON-RPC 2.0: the envelopes around the parameters of a call and around
its result. -/
namespace TypedJson.Rpc

/-- The protocol version named in every request. -/
def version : String := "2.0"

/-- A remote procedure. -/
structure Method where
  name : String
  Params : Type
  Result : Type
  [params : Codable Params]
  [result : Codable Result]

attribute [instance] Method.params Method.result

/-- The parameters of a procedure that takes none: an object without members. -/
structure Empty where
deriving DecidableEq, Repr

instance : Codable Empty where
  schema := .record []
  toValue _ := ()
  ofValue _ := {}
  ofValue_toValue _ := rfl

/-- A call of a procedure. The id ties the response to it. -/
structure Request (method : Method) where
  id : UInt32
  params : method.Params

namespace Request

variable {method : Method}

def new (params : method.Params) : Request method := ⟨0, params⟩

def withId (id : UInt32) (request : Request method) : Request method := { request with id }

/-- The envelope of a call, with its members in the order they are sent. -/
def schema (method : Method) : Schema :=
  .record
    [("id", Codable.schema UInt32), ("jsonrpc", .string), ("method", .string),
      ("params", Codable.schema method.Params)]

def toValue (request : Request method) : (schema method).Value :=
  (Codable.toValue request.id, version, method.name, Codable.toValue request.params, ())

def encode (request : Request method) : Except Error (List UInt8) :=
  (schema method).encode request.toValue

/-- The id and the method, on one line. -/
def summary (request : Request method) : String :=
  Text.summary "JsonRequest"
    [("id", toString request.id), ("method", Text.quoted method.name)] true

end Request

/-- The reply to a call that succeeded. A reply of any other kind lacks the result. -/
structure Response (method : Method) where
  id : UInt32
  result : method.Result

namespace Response

variable {method : Method}

instance : Codable (Response method) where
  schema :=
    .record [("id", Codable.schema UInt32), ("result", Codable.schema method.Result)]
  toValue response := (Codable.toValue response.id, Codable.toValue response.result, ())
  ofValue value := ⟨Codable.ofValue value.1, Codable.ofValue value.2.1⟩
  ofValue_toValue response := by simp [Codable.ofValue_toValue]

/-- The id and the result on one line, the result as `shown` gives it. -/
def summary (shown : method.Result → String) (response : Response method) : String :=
  Text.summary "JsonResponse"
    [("id", toString response.id), ("result", shown response.result)] false

end Response

end TypedJson.Rpc
