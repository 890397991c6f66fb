import TypedJson.Ascii

/-! Hexadecimal text of fixed-width binary data: two digits a byte, written in lower case and read
in either case. A text of the wrong length is refused before its digits are looked at. -/
namespace TypedJson.Hex

/-- The value of a digit in either case. -/
def digit? (byte : UInt8) : Option Nat :=
  if 0x30 ≤ byte && byte ≤ 0x39 then some (byte.toNat - 0x30)
  else if 0x61 ≤ byte && byte ≤ 0x66 then some (byte.toNat - 0x57)
  else if 0x41 ≤ byte && byte ≤ 0x46 then some (byte.toNat - 0x37)
  else none

def isDigit (byte : UInt8) : Bool := (digit? byte).isSome

/-- The lower-case digit of a value below sixteen. -/
def digit (value : Nat) : UInt8 :=
  if value < 10 then UInt8.ofNat (0x30 + value) else UInt8.ofNat (0x57 + value)

def encodeByte (byte : UInt8) : List UInt8 := [digit (byte.toNat / 16), digit (byte.toNat % 16)]

def encode (bytes : List UInt8) : List UInt8 := bytes.flatMap encodeByte

/-- The hexadecimal form of `bytes` as text. -/
def text (bytes : List UInt8) : String := String.ofList ((encode bytes).map Char.ofUInt8)

/-- Why a text is not the hexadecimal form of a given number of bytes. -/
inductive Fault where
  | length (expected actual : Nat)
  | digit (index : Nat)
deriving DecidableEq, Repr

def Fault.message : Fault → String
  | .length expected actual => s!"expected {expected} hex characters but got {actual}"
  | .digit index => s!"invalid hex character at index {index}"

/-- The bytes spelled by pairs of digits. -/
def pairs : List UInt8 → List UInt8
  | high :: low :: rest =>
    UInt8.ofNat (16 * (digit? high).getD 0 + (digit? low).getD 0) :: pairs rest
  | _ => []

theorem length_pairs (text : List UInt8) : (pairs text).length = text.length / 2 := by
  fun_induction pairs text with
  | case1 high low rest ih => simp only [List.length_cons, ih]; omega
  | case2 text short =>
    match text, short with
    | [], _ => rfl
    | [_], _ => simp
    | high :: low :: rest, short => exact absurd rfl (short high low rest)

/-- Reads exactly `width` bytes; a bad digit is reported where the first one stands. -/
def decode (width : Nat) (text : List UInt8) : Except Fault (Vector UInt8 width) :=
  if fits : text.length = 2 * width then
    match text.findIdx? (fun byte => !isDigit byte) with
    | some index => .error (.digit index)
    | none => .ok ⟨(pairs text).toArray, by simp [length_pairs, fits]⟩
  else .error (.length (2 * width) text.length)

end TypedJson.Hex
