import TypedJson.Error
import TypedJson.Utf8

/-! Escape sequences in string tokens. Writing uses the two-character form where there is one and
four hexadecimal digits for the other control characters; reading also knows the escaped slash and
surrogate pairs. A fault in a sequence gives its distance from the start of the string token. -/
namespace TypedJson.Escape

/-- The letter that stands after the backslash for `byte`, if it has a two-character form. -/
def letter? (byte : UInt8) : Option UInt8 :=
  match byte with
  | 0x22 => some 0x22
  | 0x5c => some 0x5c
  | 0x0a => some 0x6e
  | 0x0d => some 0x72
  | 0x09 => some 0x74
  | 0x08 => some 0x62
  | 0x0c => some 0x66
  | _ => none

/-- One byte of text as it stands inside a string token. -/
def encodeByte (byte : UInt8) : List UInt8 :=
  match letter? byte with
  | some letter => [Ascii.backslash, letter]
  | none =>
    if Ascii.isControl byte then
      [Ascii.backslash, Ascii.lowerU, Ascii.zero, Ascii.zero] ++ Hex.encodeByte byte
    else [byte]

/-- A string token. The bytes of characters above ASCII need no escape, so text is escaped byte by
byte in its UTF-8 form. -/
def quoted (text : List Char) : List UInt8 :=
  Ascii.quote :: (Utf8.encode text).flatMap encodeByte ++ [Ascii.quote]

/-- Where and why a string token is malformed. -/
structure Fault where
  cause : SyntaxError
  /-- The distance of the first violation from the opening quote. -/
  distance : Nat
  /-- Whether reading stops at the violation; otherwise the token is left unread. -/
  stops : Bool
deriving DecidableEq, Repr

/-- The character for the letter after a backslash. -/
def character? (letter : UInt8) : Option Char :=
  match letter with
  | 0x22 => some '"'
  | 0x5c => some '\\'
  | 0x2f => some '/'
  | 0x62 => some '\x08'
  | 0x66 => some '\x0c'
  | 0x6e => some '\n'
  | 0x72 => some '\x0d'
  | 0x74 => some '\t'
  | _ => none

/-- The value of a run of hexadecimal digits that starts `distance` bytes into the token. -/
def hexValue (distance value : Nat) : List UInt8 → Except Fault Nat
  | [] => .ok value
  | byte :: rest =>
    match Hex.digit? byte with
    | some digit => hexValue (distance + 1) (16 * value + digit) rest
    | none =>
      let cause : SyntaxError :=
        if Ascii.isAscii byte then .invalidHexDigit (Char.ofUInt8 byte)
        else .invalidByte byte
      .error ⟨cause, distance, false⟩

/-- The code unit of four hexadecimal digits. With fewer than four bytes left the token cannot end,
whatever they are. -/
def codeUnit (distance : Nat) (bytes : List UInt8) : Except Fault Nat :=
  if bytes.length < 4 then .error ⟨.unterminatedString, distance + bytes.length, false⟩
  else hexValue distance 0 (bytes.take 4)

def isHighSurrogate (unit : Nat) : Bool := 0xd800 ≤ unit && unit ≤ 0xdbff

def isLowSurrogate (unit : Nat) : Bool := 0xdc00 ≤ unit && unit ≤ 0xdfff

/-- The character above U+FFFF that a surrogate pair stands for. -/
def supplementary (high low : Nat) : Char :=
  Char.ofNat (0x10000 + 0x400 * (high - 0xd800) + (low - 0xdc00))

/-- Decodes a code unit escape whose backslash is `distance` bytes into the token; `bytes` follow
its letter. Gives the character and the length of the whole sequence. -/
def decodeUnit (distance : Nat) (bytes : List UInt8) : Except Fault (Char × Nat) := do
  let high ← codeUnit (distance + 2) bytes
  if isHighSurrogate high then
    match bytes.drop 4 with
    | Ascii.backslash :: Ascii.lowerU :: rest => do
      let low ← codeUnit (distance + 8) rest
      if isLowSurrogate low then return (supplementary high low, 12)
      else throw ⟨.invalidCodeUnit low, distance + 6, false⟩
    | _ => throw ⟨.invalidCodeUnit high, distance, false⟩
  else if isLowSurrogate high then throw ⟨.invalidCodeUnit high, distance, false⟩
  else return (Char.ofNat high, 6)

/-- Decodes the escape whose backslash is `distance` bytes into the token; `bytes` follow it. Gives
the character and the length of the whole sequence. -/
def decode (distance : Nat) (bytes : List UInt8) : Except Fault (Char × Nat) :=
  match bytes with
  | [] => .error ⟨.unterminatedString, distance + 1, false⟩
  | letter :: rest =>
    match character? letter with
    | some char => .ok (char, 2)
    | none =>
      if letter == Ascii.lowerU then decodeUnit distance rest
      else
        let cause : SyntaxError :=
          if Ascii.isAscii letter then .invalidEscape (Char.ofUInt8 letter)
          else .invalidByte letter
        .error ⟨cause, distance + 1, false⟩

end TypedJson.Escape
