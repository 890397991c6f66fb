import TypedJson.Ascii
import TypedJson.Binary64.Decimal

/-! Number tokens. A token is the longest run of bytes that can begin a number, found by an
automaton with a state per place in the grammar; it is a number only if the run stops where a number
may end. -/
namespace TypedJson

/-- A place inside a number, named for what was read last. -/
inductive NumeralState where
  | start
  | sign
  | leadingZero
  | whole
  | point
  | fraction
  | mark
  | markSign
  | exponent
deriving DecidableEq, Repr

namespace NumeralState

/-- The place after one more byte, if the byte may stand there. -/
def next? (state : NumeralState) (byte : UInt8) : Option NumeralState :=
  match state with
  | .start =>
    if byte == Ascii.minus then some .sign
    else if byte == Ascii.zero then some .leadingZero
    else if Ascii.isDigit byte then some .whole
    else none
  | .sign =>
    if byte == Ascii.zero then some .leadingZero
    else if Ascii.isDigit byte then some .whole
    else none
  | .leadingZero => afterWhole byte
  | .whole => if Ascii.isDigit byte then some .whole else afterWhole byte
  | .point => if Ascii.isDigit byte then some .fraction else none
  | .fraction => if Ascii.isDigit byte then some .fraction else afterFraction byte
  | .mark =>
    if byte == Ascii.plus || byte == Ascii.minus then some .markSign
    else if Ascii.isDigit byte then some .exponent
    else none
  | .markSign => if Ascii.isDigit byte then some .exponent else none
  | .exponent => if Ascii.isDigit byte then some .exponent else none
where
  afterFraction (byte : UInt8) : Option NumeralState :=
    if byte == Ascii.lowerE || byte == Ascii.upperE then some .mark else none
  afterWhole (byte : UInt8) : Option NumeralState :=
    if byte == Ascii.point then some .point else afterFraction byte

/-- Whether a number may end here. -/
def accepts : NumeralState → Bool
  | .leadingZero | .whole | .fraction | .exponent => true
  | _ => false

/-- Whether a number that ends here has neither fraction nor exponent. -/
def isIntegral : NumeralState → Bool
  | .leadingZero | .whole => true
  | _ => false

/-- The longest run the automaton can follow, and the place where it stops. -/
def munch (state : NumeralState) : List UInt8 → List UInt8 × NumeralState
  | [] => ([], state)
  | byte :: rest =>
    match state.next? byte with
    | none => ([], state)
    | some following =>
      let (run, last) := munch following rest
      (byte :: run, last)

end NumeralState

/-- A number token: its bytes, and whether it is written without fraction and exponent. -/
structure Numeral where
  text : List UInt8
  integral : Bool
deriving DecidableEq, Repr

namespace Numeral

/-- The number at the start of `bytes`, or the place of the first byte that cannot continue it. -/
def scan (bytes : List UInt8) : Except Nat Numeral :=
  let (run, last) := NumeralState.start.munch bytes
  if last.accepts then .ok ⟨run, last.isIntegral⟩ else .error run.length

def spelling (numeral : Numeral) : String := String.ofList (numeral.text.map Char.ofUInt8)

def isNegative (numeral : Numeral) : Bool := numeral.text.head? == some Ascii.minus

/-- The bytes after the sign. -/
def unsigned (numeral : Numeral) : List UInt8 :=
  if numeral.isNegative then numeral.text.tail else numeral.text

/-- The value of a run of digits. -/
def digitsValue (digits : List UInt8) : Nat :=
  digits.foldl (fun value digit => 10 * value + Ascii.digitValue digit) 0

/-- The exact value of an integral number, of any length. -/
def toInt (numeral : Numeral) : Int :=
  let magnitude : Int := digitsValue numeral.unsigned
  if numeral.isNegative then -magnitude else magnitude

/-- The value of exponent digits. Once it has passed 65535 further digits do not count, so that the
power of ten stays within reach; only a number of more than that many digits could tell. -/
def exponentValue (digits : List UInt8) : Nat :=
  digits.foldl
    (fun value digit => if value < 65536 then 10 * value + Ascii.digitValue digit else value) 0

/-- The exponent that follows the digits of a number, mark and sign included. -/
def signedExponent : List UInt8 → Int
  | _ :: sign :: digits =>
    if sign == Ascii.minus then -(exponentValue digits)
    else if sign == Ascii.plus then exponentValue digits
    else exponentValue (sign :: digits)
  | _ => 0

/-- The number as a decimal: the digits of whole part and fraction in one run, the exponent lowered
by the length of the fraction. -/
def toDecimal (numeral : Numeral) : Decimal :=
  let whole := numeral.unsigned.takeWhile Ascii.isDigit
  let rest := numeral.unsigned.dropWhile Ascii.isDigit
  let tail := if rest.head? == some Ascii.point then rest.tail else []
  let fraction := tail.takeWhile Ascii.isDigit
  let mark := if rest.head? == some Ascii.point then tail.dropWhile Ascii.isDigit else rest
  { negative := numeral.isNegative
    coefficient := digitsValue (whole ++ fraction)
    exponent := signedExponent mark - fraction.length }

def toBinary64 (numeral : Numeral) : Binary64 := numeral.toDecimal.toBinary64

/-- The digits of a natural number as bytes. -/
def ofNat (n : Nat) : List UInt8 := (Nat.toDigits 10 n).map Char.toUInt8

/-- The shortest text of an integer. -/
def ofInt (n : Int) : List UInt8 :=
  if n < 0 then Ascii.minus :: ofNat n.natAbs else ofNat n.natAbs

end Numeral

end TypedJson
