import TypedJson.Escape

/-! String tokens. Text is taken in runs up to the next quote or backslash. A run is searched for
its end first, then for control characters, then for malformed UTF-8, and that is the order in which
its faults are reported. -/
namespace TypedJson.StringToken

/-- The characters of a run of plain text that starts `distance` bytes into the token. -/
def plain (distance : Nat) (run : List UInt8) : Except Escape.Fault (List Char) :=
  match run.findIdx? Ascii.isControl with
  | some index => .error ⟨.controlCharacter (run.getD index 0), distance + index, true⟩
  | none =>
    match Utf8.decode run with
    | .ok chars => .ok chars
    | .error valid => .error ⟨.invalidUtf8, distance + valid, false⟩

/-- The rest of a token, `distance` bytes into it: its characters, and the length of the whole
token. -/
def body (distance : Nat) (bytes : List UInt8) : Except Escape.Fault (List Char × Nat) :=
  let run := bytes.takeWhile (fun byte => !Ascii.isDelimiter byte)
  match _h : bytes.drop run.length with
  | [] => .error ⟨.unterminatedString, distance + bytes.length, true⟩
  | delimiter :: rest => do
    let chars ← plain distance run
    let distance := distance + run.length
    if delimiter == Ascii.quote then return (chars, distance + 1)
    else
      let (char, length) ← Escape.decode distance rest
      let (following, total) ← body (distance + length) (rest.drop (length - 1))
      return (chars ++ char :: following, total)
termination_by bytes.length
decreasing_by
  have := congrArg List.length _h
  simp only [List.length_drop, List.length_cons] at this ⊢
  omega

/-- Reads the token whose opening quote is the first of `bytes`. -/
def scan (bytes : List UInt8) : Except Escape.Fault (String × Nat) := do
  let (chars, length) ← body 1 (bytes.drop 1)
  return (String.ofList chars, length)

end TypedJson.StringToken
