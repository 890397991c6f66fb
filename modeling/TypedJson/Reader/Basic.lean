import TypedJson.Error

/-! A reader: the bytes of a document that are still unread, how many were read, and how many
containers are open. A failed step may still have moved the reader, so every step gives its state
back whether it succeeds or not. -/
namespace TypedJson

structure Reader where
  unread : List UInt8
  offset : Nat
  depth : Nat
deriving DecidableEq, Repr

/-- A step of a reader. -/
abbrev Read := EStateM Error Reader

namespace Reader

/-- What a reader allows. -/
structure Options where
  /-- The number of containers at which one more is refused: with a limit of 100, a document may
  have 99 open at once. -/
  depthLimit : Nat := 100
  /-- Whether bytes other than whitespace may follow the document. -/
  allowTrailing : Bool := false
deriving DecidableEq, Repr, Inhabited

def ofBytes (document : List UInt8) : Reader := ⟨document, 0, 0⟩

/-- The length of the whole document. -/
def endOffset (reader : Reader) : Nat := reader.offset + reader.unread.length

def advance (count : Nat) (reader : Reader) : Reader :=
  { reader with unread := reader.unread.drop count, offset := reader.offset + count }

def skipWhitespace (reader : Reader) : Reader :=
  reader.advance (reader.unread.takeWhile Ascii.isWhitespace).length

/-- The error a cause makes at the offset of the reader. -/
def error (cause : Cause) (reader : Reader) : Error := ⟨cause, none, reader.offset⟩

def failAt (offset : Nat) (cause : Cause) (context : Option String) : Read α :=
  throw ⟨cause, context, offset⟩

/-- Fails at the offset of the reader. -/
def fail (cause : Cause) : Read α := do throw ((← get).error cause)

/-- The first byte of the next token, or nothing at the end. The reader moves up to the token. -/
def peekToken : Read (Option UInt8) :=
  modifyGet fun reader =>
    let reader := reader.skipWhitespace
    (reader.unread.head?, reader)

def consume (count : Nat) : Read Unit := modify (advance count)

/-- Moves up to a token that begins with a byte of `accept`. A token of another kind is an error of
the schema, a byte that begins no token an error of the document. -/
def expect (accept : UInt8 → Bool) (expected : SchemaError) : Read UInt8 := do
  match ← peekToken with
  | none => fail SyntaxError.endOfInput
  | some byte =>
    if accept byte then return byte
    else if Ascii.startsValue byte then fail expected
    else fail (SyntaxError.unexpected byte)

/-- Succeeds if the document was read to its end: no container is open and, unless more may follow,
only whitespace is left. -/
def finish (options : Options) : Read Unit := do
  let depth := (← get).depth
  if depth ≠ 0 then fail (SyntaxError.unclosed depth)
  else if options.allowTrailing then return
  else
    match ← peekToken with
    | some _ => fail SyntaxError.trailingBytes
    | none => return

end Reader

end TypedJson
