import TypedJson.Integer
import TypedJson.Numeral
import TypedJson.Reader.Basic
import TypedJson.StringToken
import TypedJson.Text.Quoted

/-! Reading values that are single tokens. A value that is refused although its token is of the
right kind is reported at the start of the token, with the reader past it. -/
namespace TypedJson.Reader

/-- Reads the bytes of `text` exactly. -/
def literal (text : String) : Read Unit := do
  let bytes := Utf8.encode text.toList
  if bytes.isPrefixOf (← get).unread then consume bytes.length
  else fail (SyntaxError.invalidLiteral text)

/-- Reads the number that starts at the next byte. -/
def numeral : Read Numeral := do
  let reader ← get
  match Numeral.scan reader.unread with
  | .ok numeral => do
    consume numeral.text.length
    return numeral
  | .error distance => failAt (reader.offset + distance) SyntaxError.invalidNumber none

/-- Reads the string token that starts at the next byte. -/
def stringToken : Read String := do
  let reader ← get
  match StringToken.scan reader.unread with
  | .ok (text, length) => do
    consume length
    return text
  | .error fault => do
    if fault.stops then consume fault.distance
    failAt (reader.offset + fault.distance) fault.cause none

def boolean : Read Bool := do
  let byte ← expect (fun byte => byte == Ascii.lowerT || byte == Ascii.lowerF) .boolean
  if byte == Ascii.lowerT then
    literal "true"
    return true
  else
    literal "false"
    return false

/-- Reads an integer of any length exactly and checks that it is in the range of `type`. -/
def integer (type : IntegerType) : Read (BoundedInt type) := do
  let expected : SchemaError := if type.signed then .integer else .unsignedInteger
  let _ ← expect Ascii.startsNumber expected
  let start := (← get).offset
  let numeral ← numeral
  if numeral.integral then
    let value := numeral.toInt
    if low : type.lowest ≤ value then
      if high : value ≤ type.highest then return ⟨value, low, high⟩
      else
        failAt start SchemaError.aboveMaximum
          (some s!"{numeral.spelling} given when {type.highest} is maximum permitted")
    else
      failAt start SchemaError.belowMinimum
        (some s!"{numeral.spelling} given when {type.lowest} is minimum permitted")
  else failAt start expected none

def real : Read Binary64 := do
  let _ ← expect Ascii.startsNumber .number
  let start := (← get).offset
  let value := (← numeral).toBinary64
  if value.isFinite then return value
  else failAt start SyntaxError.numberTooBig none

def string : Read String := do
  let _ ← expect (· == Ascii.quote) .string
  stringToken

/-- Reads a string of exactly `2 * width` hexadecimal digits. -/
def binary (width : Nat) : Read (Vector UInt8 width) := do
  let _ ← expect (· == Ascii.quote) .fixedBinary
  let start := (← get).offset
  let text ← stringToken
  match Hex.decode width (Utf8.encode text.toList) with
  | .ok bytes => return bytes
  | .error fault => failAt start SchemaError.fixedBinary (some fault.message)

/-- Reads a string and gives the place of the first name equal to it. -/
def enumeration (names : List String) : Read Nat := do
  let _ ← expect (· == Ascii.quote) .enumeration
  let start := (← get).offset
  let text ← stringToken
  match names.idxOf? text with
  | some index => return index
  | none =>
    failAt start SchemaError.enumeration
      (some s!"{Text.quoted text} is not a valid enum")

end TypedJson.Reader
