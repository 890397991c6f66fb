import TypedJson.Hex

/-! Why a document could not be read or written. An error has one cause, an optional context, and
the byte offset, into the input or the output, where the cause was found. -/
namespace TypedJson

/-- The document is JSON so far, but not what the schema asks for. -/
inductive SchemaError where
  | array
  | boolean
  | enumeration
  | fixedBinary
  | integer
  | duplicateKey
  | belowMinimum
  | tooDeep
  | missingKey
  | number
  | object
  | aboveMaximum
  | string
  | unsignedInteger
deriving DecidableEq, Repr

/-- The document is not JSON. -/
inductive SyntaxError where
  | endOfInput
  | invalidCharacter (char : Char)
  | invalidByte (byte : UInt8)
  | invalidLiteral (expected : String)
  | invalidNumber
  | numberTooBig
  | unterminatedString
  | controlCharacter (byte : UInt8)
  | invalidEscape (char : Char)
  | invalidHexDigit (char : Char)
  | invalidCodeUnit (unit : Nat)
  | invalidUtf8
  | missingElementSeparator
  | missingMemberSeparator
  | missingMemberName
  | missingColon
  | unclosed (depth : Nat)
  | trailingBytes
deriving DecidableEq, Repr

/-- A call on a writer at a place where its token cannot stand. -/
inductive Misuse where
  | incomplete (depth : Nat)
  | keyOutsideObject
  | valueWithoutKey
  | keyWithoutValue
  | mismatchedClose
  | secondRoot
deriving DecidableEq, Repr

inductive Cause where
  | schema (error : SchemaError)
  | malformed (error : SyntaxError)
  | misuse (error : Misuse)
deriving DecidableEq, Repr

instance : Coe SchemaError Cause := ⟨.schema⟩
instance : Coe SyntaxError Cause := ⟨.malformed⟩
instance : Coe Misuse Cause := ⟨.misuse⟩

structure Error where
  cause : Cause
  context : Option String
  offset : Nat
deriving DecidableEq, Repr

/-- A byte that cannot stand where it does: shown as a character if it is one by itself. -/
def SyntaxError.unexpected (byte : UInt8) : SyntaxError :=
  if byte < 0x80 then .invalidCharacter (Char.ofUInt8 byte) else .invalidByte byte

def SchemaError.message : SchemaError → String
  | .array => "expected an array value"
  | .boolean => "expected a boolean value"
  | .enumeration => "expected a value from a specific set"
  | .fixedBinary => "expected a binary value of fixed length"
  | .integer => "expected an integer value"
  | .duplicateKey => "key for object is invalid"
  | .belowMinimum => "expected a larger integer value"
  | .tooDeep => "maximum depth of nested objects and arrays reached"
  | .missingKey => "missing required key for object"
  | .number => "expected a number value"
  | .object => "expected an object value"
  | .aboveMaximum => "expected a smaller integer value"
  | .string => "expected a string value"
  | .unsignedInteger => "expected an unsigned integer value"

/-- A code unit as it stands in an escape: upper-case digits, at least four of them. -/
def SyntaxError.unitText (unit : Nat) : String :=
  let digits := (Nat.toDigits 16 unit).map Char.toUpper
  String.ofList (List.replicate (4 - digits.length) '0' ++ digits)

def SyntaxError.message : SyntaxError → String
  | .endOfInput => "unexpected end of input"
  | .invalidCharacter char => s!"invalid character '{char}'"
  | .invalidByte byte => s!"invalid byte 0x{Hex.text [byte]}"
  | .invalidLiteral expected => s!"invalid literal, expected `{expected}`"
  | .invalidNumber => "invalid number"
  | .numberTooBig => "number too big to be stored in a double"
  | .unterminatedString => "missing closing quotation mark in string"
  | .controlCharacter byte => s!"unescaped control character 0x{Hex.text [byte]} in string"
  | .invalidEscape char => s!"invalid escape character '{char}'"
  | .invalidHexDigit char =>
    s!"invalid unicode escape sequence at character: '{char}'"
  | .invalidCodeUnit unit => "invalid unicode escape sequence \\u" ++ unitText unit
  | .invalidUtf8 => "invalid UTF-8 in string"
  | .missingElementSeparator => "missing a comma or ']' after an array element"
  | .missingMemberSeparator => "missing a comma or '\x7d' after an object member"
  | .missingMemberName => "missing a name for object member"
  | .missingColon => "missing a colon after a name of object member"
  | .unclosed depth =>
    s!"unexpected end of document with {depth} open object(s) or array(s)"
  | .trailingBytes => "trailing characters after the document"

def Misuse.message : Misuse → String
  | .incomplete depth => s!"incomplete JSON document with {depth} open object(s) or array(s)"
  | .keyOutsideObject => "object key written outside of an object"
  | .valueWithoutKey => "object value written without a key"
  | .keyWithoutValue => "object key written before the previous key's value"
  | .mismatchedClose => "closed a scope that was not open"
  | .secondRoot => "document already has a root value"

/-- What went wrong, without the kind of error it is. -/
def Cause.detail : Cause → String
  | .schema error => error.message
  | .malformed error => error.message
  | .misuse error => error.message

def Cause.message : Cause → String
  | .schema error => s!"schema error: {error.message}"
  | .malformed error => s!"syntax error: {error.message}"
  | .misuse error => s!"write error: {error.message}"

namespace Error

def withContext (context : String) (error : Error) : Error :=
  { error with context := some context }

def schema? (error : Error) : Option SchemaError :=
  match error.cause with
  | .schema cause => some cause
  | _ => none

def malformed? (error : Error) : Option SyntaxError :=
  match error.cause with
  | .malformed cause => some cause
  | _ => none

def misuse? (error : Error) : Option Misuse :=
  match error.cause with
  | .misuse cause => some cause
  | _ => none

/-- The cause, the context if there is one, and the offset. -/
def message (error : Error) : String :=
  let context := match error.context with
    | some context => s!": {context}"
    | none => ""
  s!"{error.cause.message}{context} at byte {error.offset}"

/-- The texts of an error's causes, the outermost first. -/
def chain (error : Error) : List String := [error.cause.message, error.cause.detail]

end Error

end TypedJson
