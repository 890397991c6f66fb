import TypedJson.Reader.Scalar

/-! Reading arrays and objects, and skipping values of any kind.

Two quantities bound the recursion. A container opens only below the limit, so values nest no deeper
than the levels left under it. And every turn of a loop but the first takes a separator, every member
a name, so a loop turns no more often than there are unread bytes; once they are spent, what is
missing is the separator. -/
namespace TypedJson.Reader

/-- Enters the container whose bracket is the next byte. The bracket is read and the container
counted as open even if it is one too many. -/
def enter (limit : Nat) : Read Unit := do
  modify fun reader => { reader.advance 1 with depth := reader.depth + 1 }
  if limit ≤ (← get).depth then fail SchemaError.tooDeep

/-- Leaves the container whose closing bracket was read. -/
def leave : Read Unit := modify fun reader => { reader with depth := reader.depth - 1 }

def openArray (limit : Nat) : Read Unit := do
  let _ ← expect (· == Ascii.openBracket) .array
  enter limit

/-- Whether the array ends here, after `count` elements; the bracket is read. If it goes on after an
element, the comma is read. -/
def arrayEnds (count : Nat) : Read Bool := do
  match ← peekToken with
  | none => fail SyntaxError.missingElementSeparator
  | some byte =>
    if byte == Ascii.closeBracket then
      consume 1
      return true
    else if count = 0 then return false
    else if byte == Ascii.comma then
      consume 1
      return false
    else fail SyntaxError.missingElementSeparator

def closeArray : Read Unit := leave

/-- The elements of an open array after the first `count`, each read by `item`, in at most `budget`
turns. -/
def elementsFrom (item : Read α) : (budget count : Nat) → Read (List α)
  | 0, _ => fail SyntaxError.missingElementSeparator
  | budget + 1, count => do
    if ← arrayEnds count then return []
    else
      let element ← item
      let following ← elementsFrom item budget (count + 1)
      return element :: following

/-- The elements of the open array, up to and with its closing bracket. -/
def elements (item : Read α) : Read (List α) := do
  elementsFrom item ((← get).unread.length + 1) 0

def openObject (limit : Nat) : Read Unit := do
  let _ ← expect (· == Ascii.openBrace) .object
  enter limit

/-- A name and the colon after it. -/
def nameAndColon : Read String := do
  if (← peekToken) ≠ some Ascii.quote then fail SyntaxError.missingMemberName
  let name ← stringToken
  if (← peekToken) ≠ some Ascii.colon then fail SyntaxError.missingColon
  consume 1
  return name

/-- The name of the next member of the open object after `count` of them, read with its colon; or
nothing once the closing brace is read. -/
def memberName (count : Nat) : Read (Option String) := do
  match ← peekToken with
  | none => fail SyntaxError.missingMemberSeparator
  | some byte =>
    if byte == Ascii.closeBrace then
      consume 1
      return none
    else
      if count ≠ 0 then
        if byte == Ascii.comma then consume 1
        else fail SyntaxError.missingMemberSeparator
      return some (← nameAndColon)

/-- The place in `names` of the next member named there, or nothing once the object has ended. The
values of other members are passed over by `skip`. -/
def keyWith (skip : Read Unit) (names : List String) : (budget count : Nat) → Read (Option Nat)
  | 0, _ => fail SyntaxError.missingMemberSeparator
  | budget + 1, count => do
    match ← memberName count with
    | none => return none
    | some name =>
      match names.idxOf? name with
      | some index => return some index
      | none => do
        skip
        keyWith skip names budget (count + 1)

def closeObject : Read Unit := leave

/-- Skips one value, passing over the values inside it by `inner`. -/
def skipUsing (limit : Nat) (inner : Read Unit) : Read Unit := do
  match ← peekToken with
  | none => fail SyntaxError.endOfInput
  | some byte =>
    if byte == Ascii.openBracket then
      enter limit
      let _ ← elements inner
      closeArray
    else if byte == Ascii.openBrace then
      enter limit
      let _ ← keyWith inner [] (← get).unread.length 0
      closeObject
    else if byte == Ascii.quote then
      let _ ← stringToken
    else if byte == Ascii.lowerT then literal "true"
    else if byte == Ascii.lowerF then literal "false"
    else if byte == Ascii.lowerN then literal "null"
    else if Ascii.startsNumber byte then
      let _ ← numeral
    else fail (SyntaxError.unexpected byte)

/-- Skips one value when `levels` more containers are within the limit. Without levels no container
opens, so nothing inside one is reached. -/
def skipWithin (limit : Nat) : (levels : Nat) → Read Unit
  | 0 => skipUsing limit (pure ())
  | levels + 1 => skipUsing limit (skipWithin limit levels)

/-- Skips one value of any kind, checking that it is well formed. -/
def skip (limit : Nat) : Read Unit := do skipWithin limit (limit - (← get).depth)

/-- The place in `names` of the next member named there, or nothing once the object has ended; all
other members are skipped. `count` members were returned before. -/
def key (limit : Nat) (names : List String) (count : Nat) : Read (Option Nat) := do
  keyWith (skip limit) names (← get).unread.length count

/-- Reads an array whose elements are read by `item`. -/
def readArray (limit : Nat) (item : Read α) : Read (List α) := do
  openArray limit
  let values ← elements item
  closeArray
  return values

/-- The remaining members of the open object, in at most `budget` turns. `seen` holds the places of
the names met so far; a name met again is an error. `field` reads the value at a place into the
record. -/
def membersFrom (limit : Nat) (names : List String) (field : Nat → ρ → Read ρ) :
    (budget : Nat) → (seen : List Nat) → ρ → Read (List Nat × ρ)
  | 0, _, _ => fail SyntaxError.missingMemberSeparator
  | budget + 1, seen, record => do
    match ← key limit names seen.length with
    | none => return (seen, record)
    | some index =>
      if index ∈ seen then
        failAt (← get).offset SchemaError.duplicateKey
          (some ("duplicate " ++ names.getD index ""))
      else
        let record ← field index record
        membersFrom limit names field budget (index :: seen) record

/-- The first name whose place is not among `seen`. -/
def firstMissing? (names : List String) (seen : List Nat) : Option String :=
  (names.zipIdx.find? fun (_, index) => !seen.contains index).map (·.1)

/-- Reads an object into `record`: every one of `names` has to be met exactly once, in any order,
and members of other names are skipped. -/
def readObject (limit : Nat) (names : List String) (field : Nat → ρ → Read ρ) (record : ρ) :
    Read ρ := do
  openObject limit
  let (seen, record) ← membersFrom limit names field (← get).unread.length [] record
  closeObject
  match firstMissing? names seen with
  | some name => failAt (← get).offset SchemaError.missingKey (some name)
  | none => return record

end TypedJson.Reader
