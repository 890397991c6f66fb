/-! UTF-8 text as lists of bytes. Decoding reports how much of malformed input was sound. -/
namespace TypedJson.Utf8

def encode (text : List Char) : List UInt8 := text.flatMap String.utf8EncodeChar

/-- The character whose encoding the bytes begin with. No encoding is longer than four bytes, so
only those are looked at. -/
def first? (bytes : List UInt8) : Option Char :=
  (bytes.take 4).toByteArray.utf8DecodeChar? 0

/-- Decodes all of `bytes`, or gives the length of the longest part, from the start, that is made
of whole characters. -/
def decode (bytes : List UInt8) : Except Nat (List Char) :=
  match bytes with
  | [] => .ok []
  | byte :: rest =>
    match first? (byte :: rest) with
    | none => .error 0
    | some char =>
      match decode (rest.drop (char.utf8Size - 1)) with
      | .ok chars => .ok (char :: chars)
      | .error valid => .error (char.utf8Size + valid)
termination_by bytes.length
decreasing_by simp only [List.length_drop, List.length_cons]; omega

end TypedJson.Utf8
