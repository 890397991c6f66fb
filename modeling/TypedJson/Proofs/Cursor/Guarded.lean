import TypedJson.Reader.Container

/-! A reader that keeps its place in the document as an index and takes bytes by slice and by index.
What it takes for granted there, and where it moves and counts, is checked. A check that fails is a
breach: no document may cause one, whereas every error is some document's fault. -/
namespace TypedJson

/-- What a reader takes for granted, when it does not hold. -/
inductive Breach where
  /-- A slice ends before it begins, or past the end of the bytes. -/
  | slice
  /-- An index is past the end of the bytes. -/
  | index
  /-- The reader moves past the end of the document. -/
  | advance
  /-- A string token is scanned where no quote stands. -/
  | quote
  /-- A byte below zero is taken for a digit. -/
  | digit
  /-- A count is too large for a machine word. -/
  | count
  /-- A container is closed where none is open. -/
  | close
  /-- A loop turns, or skipping descends, more often than the document and the limit allow. -/
  | endless
deriving DecidableEq, Repr

/-- Why a guarded step fails. -/
inductive Failure where
  | breach (breach : Breach)
  | error (error : Error)
deriving DecidableEq, Repr

/-- The place of a reader in its document, and the number of containers open there. -/
structure Cursor where
  position : Nat
  depth : Nat
deriving DecidableEq, Repr

/-- A step of a cursor. -/
abbrev Guarded := EStateM Failure Cursor

namespace Cursor

variable {α : Type}

def failAt (offset : Nat) (cause : Cause) (context : Option String) : Guarded α :=
  throw (.error ⟨cause, context, offset⟩)

/-- Fails at the place of the cursor. -/
def fail (cause : Cause) : Guarded α := do failAt (← get).position cause none

/-- Stops unless what is taken for granted holds. -/
def require (holds : Prop) [Decidable holds] (breach : Breach) : Guarded Unit :=
  if holds then return else throw (.breach breach)

def slice (bytes : List UInt8) (first last : Nat) : Guarded (List UInt8) := do
  require (first ≤ last ∧ last ≤ bytes.length) .slice
  return bytes.extract first last

def byteAt (bytes : List UInt8) (place : Nat) : Guarded UInt8 :=
  match bytes[place]? with
  | some byte => return byte
  | none => throw (.breach .index)

/-- Stops unless a machine word can hold the count. -/
def checkCount (count : Nat) : Guarded Unit := require (count < IntegerType.usize.count) .count

def moveTo (position : Nat) : Guarded Unit := modify fun cursor => { cursor with position }

/-- Leaves the container whose closing bracket was read. -/
def leave : Guarded Unit := do
  require (0 < (← get).depth) .close
  modify fun cursor => { cursor with depth := cursor.depth - 1 }

variable (document : List UInt8)

def remaining : Guarded (List UInt8) := do slice document (← get).position document.length

def advance (count : Nat) : Guarded Unit := do
  require ((← get).position + count ≤ document.length) .advance
  modify fun cursor => { cursor with position := cursor.position + count }

/-! Tokens -/

def peekToken : Guarded (Option UInt8) := do
  let space := (← remaining document).takeWhile Ascii.isWhitespace
  moveTo ((← get).position + space.length)
  return document[(← get).position]?

def expect (accept : UInt8 → Bool) (expected : SchemaError) : Guarded UInt8 := do
  match ← peekToken document with
  | none => fail SyntaxError.endOfInput
  | some byte =>
    if accept byte then return byte
    else if Ascii.startsValue byte then fail expected
    else fail (SyntaxError.unexpected byte)

def literal (text : String) : Guarded Unit := do
  let bytes := Utf8.encode text.toList
  if bytes.isPrefixOf (← remaining document) then advance document bytes.length
  else fail (SyntaxError.invalidLiteral text)

/-- Scans a number. The scan asks for each byte and is told if there is none, so it has nothing to
check. -/
def numeral : Guarded Numeral := do
  let start := (← get).position
  match Numeral.scan (document.drop start) with
  | .ok numeral => do
    moveTo (start + numeral.text.length)
    return numeral
  | .error distance => failAt (start + distance) SyntaxError.invalidNumber none

/-- The number that was scanned from `start` on. -/
def lexeme (start : Nat) (integral : Bool) : Guarded Numeral := do
  return ⟨← slice document start (← get).position, integral⟩

/-- The characters of a segment of plain text that stands at `first`. -/
def plain (first : Nat) (segment : List UInt8) : Guarded (List Char) := do
  match segment.findIdx? Ascii.isControl with
  | some place => do
    moveTo (first + place)
    failAt (first + place) (SyntaxError.controlCharacter (← byteAt segment place)) none
  | none =>
    match Utf8.decode segment with
    | .ok chars => return chars
    | .error valid => failAt (first + valid) SyntaxError.invalidUtf8 none

/-- The character of the escape at `last` in the string token at `start`, and the length of the
escape. It asks for its bytes as a number does. -/
def escape (start last : Nat) : Guarded (Char × Nat) :=
  match Escape.decode (last - start) (document.drop (last + 1)) with
  | .ok found => return found
  | .error fault => failAt (start + fault.distance) fault.cause none

/-- The rest, from `first` on, of the string token at `start`. -/
def textFrom (start : Nat) : (turns first : Nat) → Guarded (List Char)
  | 0, _ => throw (.breach .endless)
  | turns + 1, first => do
    match (← slice document first document.length).findIdx? Ascii.isDelimiter with
    | none => do
      moveTo document.length
      failAt document.length SyntaxError.unterminatedString none
    | some length => do
      let last := first + length
      let chars ← plain first (← slice document first last)
      if (← byteAt document last) == Ascii.quote then
        moveTo (last + 1)
        return chars
      else
        let (char, size) ← escape document start last
        let following ← textFrom start turns (last + size)
        return chars ++ char :: following

def stringToken : Guarded String := do
  let start := (← get).position
  require (document[start]? = some Ascii.quote) .quote
  return String.ofList (← textFrom document start document.length (start + 1))

/-! Values that are single tokens -/

def boolean : Guarded Bool := do
  let byte ← expect document (fun byte => byte == Ascii.lowerT || byte == Ascii.lowerF) .boolean
  if byte == Ascii.lowerT then
    literal document "true"
    return true
  else
    literal document "false"
    return false

def integer (type : IntegerType) : Guarded (BoundedInt type) := do
  let expected : SchemaError := if type.signed then .integer else .unsignedInteger
  let _ ← expect document Ascii.startsNumber expected
  let start := (← get).position
  let token ← numeral document
  if token.integral then
    let numeral ← lexeme document start token.integral
    require (numeral.unsigned.all fun digit => Ascii.zero ≤ digit) .digit
    let value := numeral.toInt
    if low : type.lowest ≤ value then
      if high : value ≤ type.highest then return ⟨value, low, high⟩
      else
        failAt start SchemaError.aboveMaximum
          (some s!"{numeral.spelling} given when {type.highest} is maximum permitted")
    else
      failAt start SchemaError.belowMinimum
        (some s!"{numeral.spelling} given when {type.lowest} is minimum permitted")
  else failAt start expected none

def real : Guarded Binary64 := do
  let _ ← expect document Ascii.startsNumber .number
  let start := (← get).position
  let token ← numeral document
  let value := (← lexeme document start token.integral).toBinary64
  if value.isFinite then return value
  else failAt start SyntaxError.numberTooBig none

def string : Guarded String := do
  let _ ← expect document (· == Ascii.quote) .string
  stringToken document

def binary (width : Nat) : Guarded (Vector UInt8 width) := do
  let _ ← expect document (· == Ascii.quote) .fixedBinary
  let start := (← get).position
  let text ← stringToken document
  match Hex.decode width (Utf8.encode text.toList) with
  | .ok bytes => return bytes
  | .error fault => failAt start SchemaError.fixedBinary (some fault.message)

def enumeration (names : List String) : Guarded Nat := do
  let _ ← expect document (· == Ascii.quote) .enumeration
  let start := (← get).position
  let text ← stringToken document
  match names.idxOf? text with
  | some index => return index
  | none =>
    failAt start SchemaError.enumeration
      (some s!"{Text.quoted text} is not a valid enum")

/-! Containers -/

/-- Enters the container whose bracket is the next byte. -/
def enter (limit : Nat) : Guarded Unit := do
  advance document 1
  checkCount ((← get).depth + 1)
  modify fun cursor => { cursor with depth := cursor.depth + 1 }
  if limit ≤ (← get).depth then fail SchemaError.tooDeep

def openArray (limit : Nat) : Guarded Unit := do
  let _ ← expect document (· == Ascii.openBracket) .array
  enter document limit

def arrayEnds (count : Nat) : Guarded Bool := do
  match ← peekToken document with
  | none => fail SyntaxError.missingElementSeparator
  | some byte =>
    if byte == Ascii.closeBracket then
      advance document 1
      return true
    else if count = 0 then return false
    else if byte == Ascii.comma then
      advance document 1
      return false
    else fail SyntaxError.missingElementSeparator

def elementsFrom (item : Guarded α) : (turns count : Nat) → Guarded (List α)
  | 0, _ => throw (.breach .endless)
  | turns + 1, count => do
    if ← arrayEnds document count then return []
    else
      let element ← item
      checkCount (count + 1)
      let following ← elementsFrom item turns (count + 1)
      return element :: following

def openObject (limit : Nat) : Guarded Unit := do
  let _ ← expect document (· == Ascii.openBrace) .object
  enter document limit

def nameAndColon : Guarded String := do
  if (← peekToken document) ≠ some Ascii.quote then fail SyntaxError.missingMemberName
  let name ← stringToken document
  if (← peekToken document) ≠ some Ascii.colon then fail SyntaxError.missingColon
  moveTo ((← get).position + 1)
  return name

def memberName (count : Nat) : Guarded (Option String) := do
  match ← peekToken document with
  | none => fail SyntaxError.missingMemberSeparator
  | some byte =>
    if byte == Ascii.closeBrace then
      advance document 1
      return none
    else
      if count ≠ 0 then
        if byte == Ascii.comma then advance document 1
        else fail SyntaxError.missingMemberSeparator
      checkCount (count + 1)
      return some (← nameAndColon document)

def keyWith (skip : Guarded Unit) (names : List String) :
    (turns count : Nat) → Guarded (Option Nat)
  | 0, _ => throw (.breach .endless)
  | turns + 1, count => do
    match ← memberName document count with
    | none => return none
    | some name =>
      match names.idxOf? name with
      | some index => return some index
      | none => do
        skip
        keyWith skip names turns (count + 1)

/-- Skips one value, passing over the values inside it by `inner`. A loop ends before it has turned
more often than there are bytes. -/
def skipUsing (limit : Nat) (inner : Guarded Unit) : Guarded Unit := do
  match ← peekToken document with
  | none => fail SyntaxError.endOfInput
  | some byte =>
    if byte == Ascii.openBracket then
      openArray document limit
      let _ ← elementsFrom document inner (document.length + 1) 0
      leave
    else if byte == Ascii.openBrace then
      openObject document limit
      let _ ← keyWith document inner [] (document.length + 1) 0
      leave
    else if byte == Ascii.quote then
      let _ ← stringToken document
    else if byte == Ascii.lowerT then literal document "true"
    else if byte == Ascii.lowerF then literal document "false"
    else if byte == Ascii.lowerN then literal document "null"
    else if Ascii.startsNumber byte then
      let _ ← numeral document
    else fail (SyntaxError.unexpected byte)

def skipWithin (limit : Nat) : (levels : Nat) → Guarded Unit
  | 0 => skipUsing document limit (throw (.breach .endless))
  | levels + 1 => skipUsing document limit (skipWithin limit levels)

def skip (limit : Nat) : Guarded Unit := do skipWithin document limit (limit - (← get).depth)

def key (limit : Nat) (names : List String) (count : Nat) : Guarded (Option Nat) :=
  keyWith document (skip document limit) names (document.length + 1) count

def finish (options : Reader.Options) : Guarded Unit := do
  let depth := (← get).depth
  if depth ≠ 0 then fail (SyntaxError.unclosed depth)
  else if options.allowTrailing then return
  else
    match ← peekToken document with
    | some _ => fail SyntaxError.trailingBytes
    | none => return

end Cursor

end TypedJson
