import TypedJson.Binary64.Shortest
import TypedJson.Escape
import TypedJson.Numeral

/-! A writer: tokens appended one at a time to a document without whitespace. It keeps track of the
containers still open and refuses a token that cannot stand where it is written; a refused call
changes nothing. -/
namespace TypedJson

/-- An open container and what was written in it so far. -/
inductive Scope where
  | array (count : Nat)
  /-- `pending` says that the last key has no value yet. -/
  | object (count : Nat) (pending : Bool)
deriving DecidableEq, Repr

structure Writer where
  text : Array UInt8
  /-- The open containers, the innermost first. -/
  scopes : List Scope
  /-- Whether the document has its root value. -/
  complete : Bool
deriving DecidableEq, Repr

/-- A step of a writer. -/
abbrev Write := EStateM Error Writer

namespace Writer

def empty : Writer := ⟨#[], [], false⟩

def depth (writer : Writer) : Nat := writer.scopes.length

def append (bytes : List UInt8) (writer : Writer) : Writer :=
  { writer with text := writer.text ++ bytes }

/-- Fails at the end of the text. -/
def fail (cause : Cause) (context : Option String) : Write α := do
  throw ⟨cause, context, (← get).text.size⟩

/-- Sets off what follows from the `count` entries before it in the same container. -/
def separate (count : Nat) : Write Unit := do
  if count ≠ 0 then modify (append [Ascii.comma])

def setScopes (scopes : List Scope) : Write Unit :=
  modify fun writer => { writer with scopes := scopes }

/-- Takes the place for a value: in an array after the elements before it, in an object after its
key, outside of both as the only one. -/
def beginValue : Write Unit := do
  match (← get).scopes with
  | [] => if (← get).complete then fail Misuse.secondRoot none
  | .array count :: outer =>
    separate count
    setScopes (.array (count + 1) :: outer)
  | .object count true :: outer => setScopes (.object count false :: outer)
  | .object _ false :: _ => fail Misuse.valueWithoutKey none

/-- Notes that a value has ended; outside of any container it was the root. -/
def endValue : Write Unit :=
  modify fun writer => if writer.scopes.isEmpty then { writer with complete := true } else writer

/-- Writes a value that is a single token. -/
def scalar (token : List UInt8) : Write Unit := do
  beginValue
  modify (append token)
  endValue

def boolean (value : Bool) : Write Unit :=
  scalar (Utf8.encode (if value then "true" else "false").toList)

def integer (value : Int) : Write Unit := scalar (Numeral.ofInt value)

/-- Writes a finite number; no other has a text. -/
def real (value : Binary64) : Write Unit :=
  if value.isFinite then scalar value.text
  else fail SchemaError.number (some s!"{value.nonFiniteName} is not representable")

def string (value : String) : Write Unit := scalar (Escape.quoted value.toList)

/-- Writes bytes as a string of hexadecimal digits. -/
def binary (bytes : List UInt8) : Write Unit :=
  scalar (Ascii.quote :: Hex.encode bytes ++ [Ascii.quote])

/-- Writes the name at a place of `names`. -/
def enumeration (index : Nat) (names : List String) : Write Unit :=
  match names[index]? with
  | some name => string name
  | none =>
    fail SchemaError.enumeration (some s!"index {index} is outside of {names.length} names")

def openScope (bracket : UInt8) (scope : Scope) : Write Unit := do
  beginValue
  modify fun writer => { writer.append [bracket] with scopes := scope :: writer.scopes }

/-- Leaves the innermost container. -/
def closeScope (bracket : UInt8) : Write Unit := do
  modify fun writer => { writer.append [bracket] with scopes := writer.scopes.tail }
  endValue

def openArray : Write Unit := openScope Ascii.openBracket (.array 0)

def closeArray : Write Unit := do
  match (← get).scopes with
  | .array _ :: _ => closeScope Ascii.closeBracket
  | _ => fail Misuse.mismatchedClose none

def openObject : Write Unit := openScope Ascii.openBrace (.object 0 false)

/-- Writes the name of a member; the next value belongs to it. -/
def key (name : String) : Write Unit := do
  match (← get).scopes with
  | .object count false :: outer =>
    separate count
    modify (append (Escape.quoted name.toList ++ [Ascii.colon]))
    setScopes (.object (count + 1) true :: outer)
  | .object _ true :: _ => fail Misuse.keyWithoutValue none
  | _ => fail Misuse.keyOutsideObject none

def closeObject : Write Unit := do
  match (← get).scopes with
  | .object _ false :: _ => closeScope Ascii.closeBrace
  | _ => fail Misuse.mismatchedClose none

/-- Hands out the finished document and leaves the writer empty. -/
def take : Write (List UInt8) := do
  let writer ← get
  if writer.complete && writer.scopes.isEmpty then
    set empty
    return writer.text.toList
  else fail (Misuse.incomplete writer.depth) none

end Writer

end TypedJson
