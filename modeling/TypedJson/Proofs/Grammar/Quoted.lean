import Mathlib.Data.List.Basic
import TypedJson.Proofs.Grammar.StringToken

/-! Text and binary data as they are written: string tokens of the grammar, which spell the text and
the hexadecimal digits of the data. -/
namespace TypedJson

open Grammar

namespace Hex

variable {byte : UInt8} {value : Nat}

/-- What holds whatever the two halves are holds of every byte. -/
theorem forall_byte {p : UInt8 → Prop}
    (each : ∀ high < 16, ∀ low < 16, p (UInt8.ofNat (16 * high + low))) (byte : UInt8) :
    p byte := by
  have := byte.toNat_lt
  have halves := each (byte.toNat / 16) (by omega) (byte.toNat % 16) (by omega)
  rwa [Nat.div_add_mod, UInt8.ofNat_toNat] at halves

theorem digit?_digit (small : value < 16) : digit? (digit value) = some value := by
  revert value
  decide

theorem encodeByte_digits (byte : UInt8) :
    digit? (digit (byte.toNat / 16)) = some (byte.toNat / 16) ∧
      digit? (digit (byte.toNat % 16)) = some (byte.toNat % 16) := by
  have := byte.toNat_lt
  exact ⟨digit?_digit (by omega), digit?_digit (by omega)⟩

theorem pairs_encode (bytes : List UInt8) : pairs (encode bytes) = bytes := by
  induction bytes with
  | nil => rfl
  | cons byte bytes ih =>
    obtain ⟨high, low⟩ := encodeByte_digits byte
    change UInt8.ofNat (16 * (digit? (digit (byte.toNat / 16))).getD 0 +
      (digit? (digit (byte.toNat % 16))).getD 0) :: pairs (encode bytes) = _
    rw [high, low, ih, Option.getD_some, Option.getD_some, Nat.div_add_mod, UInt8.ofNat_toNat]

theorem encode_isDigit (bytes : List UInt8) : ∀ byte ∈ encode bytes, isDigit byte = true := by
  intro byte member
  obtain ⟨source, _, member⟩ := List.mem_flatMap.mp member
  obtain ⟨high, low⟩ := encodeByte_digits source
  rw [isDigit]
  rw [encodeByte, List.mem_cons, List.mem_singleton] at member
  rcases member with rfl | rfl
  · rw [high]; rfl
  · rw [low]; rfl

theorem length_encode (bytes : List UInt8) : (encode bytes).length = 2 * bytes.length := by
  induction bytes with
  | nil => rfl
  | cons byte bytes ih =>
    rw [encode, List.flatMap_cons, List.length_append, ← encode, ih, List.length_cons]
    change 2 + _ = _
    omega

theorem decode_encode {width : Nat} (bytes : Vector UInt8 width) :
    decode width (encode bytes.toList) = .ok bytes := by
  have fits : (encode bytes.toList).length = 2 * width := by
    rw [length_encode, Vector.length_toList]
  have digits : (encode bytes.toList).findIdx? (fun byte => !isDigit byte) = none := by
    refine List.findIdx?_eq_none_iff.mpr fun byte member => ?_
    rw [encode_isDigit _ byte member]
    rfl
  simp only [decode, fits, dif_pos, digits]
  refine congrArg Except.ok (Vector.toArray_inj.mp ?_)
  change (pairs (encode bytes.toList)).toArray = bytes.toArray
  rw [pairs_encode]
  exact Array.toArray_toList

/-- Digits are characters of their own, none of which needs an escape. -/
theorem token_digits {text : List UInt8} (digits : ∀ byte ∈ text, isDigit byte = true) :
    Grammar.StringToken (Ascii.quote :: text ++ [Ascii.quote])
        (String.ofList (text.map Char.ofUInt8)) ∧
      Utf8.encode (text.map Char.ofUInt8) = text := by
  have plain : ∀ byte, isDigit byte = true → IsPlain (Char.ofUInt8 byte) ∧
      String.utf8EncodeChar (Char.ofUInt8 byte) = [byte] := by
    unfold IsPlain
    exact forall_byte (by decide)
  have same : Utf8.encode (text.map Char.ofUInt8) = text := by
    rw [Utf8.encode, List.flatMap_map,
      List.flatMap_congr fun byte member => (plain byte (digits byte member)).2,
      List.flatMap_singleton']
  have spelled : Characters text (text.map Char.ofUInt8) := by
    have := Characters.plain
      (List.forall_mem_map.mpr fun byte member => (plain byte (digits byte member)).1)
    rwa [same] at this
  exact ⟨.mk spelled, same⟩

theorem token_encode (bytes : List UInt8) :
    Grammar.StringToken (Ascii.quote :: encode bytes ++ [Ascii.quote]) (text bytes) ∧
      Utf8.encode (text bytes).toList = encode bytes := by
  rw [text, String.toList_ofList]
  exact token_digits (encode_isDigit bytes)

end Hex

namespace Escape

variable {byte : UInt8} {char : Char}

theorem encodeByte_plain (outside : Ascii.isDelimiter byte = false)
    (visible : Ascii.isControl byte = false) : encodeByte byte = [byte] := by
  have none : letter? byte = none := by
    unfold letter?
    split <;> first | contradiction | rfl
  simp only [encodeByte, none, visible, Bool.false_eq_true, if_false]

theorem letter?_letters : ∀ n < 0x20, ∀ letter,
    letter? (UInt8.ofNat n) = some letter → (letter, Char.ofNat n) ∈ letters := by
  intro n bound letter known
  have all : ∀ n < 0x20, (letter? (UInt8.ofNat n)).all fun letter =>
      (letter, Char.ofNat n) ∈ letters := by decide
  have := all n bound
  rw [known] at this
  exact of_decide_eq_true this

/-- A control character is spelled by its letter or its code unit. -/
theorem spells_control (control : char.toNat < 0x20) :
    Spells (encodeByte (UInt8.ofNat char.toNat)) char := by
  have size : (UInt8.ofNat char.toNat).toNat = char.toNat := by rw [UInt8.toNat_ofNat']; omega
  cases known : letter? (UInt8.ofNat char.toNat) with
  | some letter =>
    have member := letter?_letters char.toNat control letter known
    rw [Char.ofNat_toNat] at member
    simp only [encodeByte, known]
    exact .escape (.letter member)
  | none =>
    have isControl : Ascii.isControl (UInt8.ofNat char.toNat) = true := by
      rw [Ascii.isControl, decide_eq_true_eq, UInt8.lt_iff_toNat_lt, size]
      exact control
    obtain ⟨high, low⟩ := Hex.encodeByte_digits (UInt8.ofNat char.toNat)
    have unit : CodeUnit ([Ascii.zero, Ascii.zero] ++ Hex.encodeByte (UInt8.ofNat char.toNat))
        char.toNat := by
      have zero : Hex.digit? Ascii.zero = some 0 := rfl
      have spelled := CodeUnit.mk zero zero high low
      have value : 0x1000 * 0 + 0x100 * 0 + 0x10 * (char.toNat / 16) + char.toNat % 16 =
        char.toNat := by omega
      change CodeUnit [Ascii.zero, Ascii.zero, Hex.digit ((UInt8.ofNat char.toNat).toNat / 16),
        Hex.digit ((UInt8.ofNat char.toNat).toNat % 16)] char.toNat
      rw [size] at spelled ⊢
      rwa [value] at spelled
    have escaped := Escaped.unit unit (by omega)
    rw [Char.ofNat_toNat] at escaped
    simp only [encodeByte, known, isControl, if_true]
    exact .escape escaped

theorem spells_encode (char : Char) :
    Spells ((String.utf8EncodeChar char).flatMap encodeByte) char := by
  by_cases isPlain : IsPlain char
  · have outside := StringToken.isPlain_iff.mp isPlain
    rw [List.flatMap_congr fun byte member => (encodeByte_plain (outside byte member).1
      (outside byte member).2), List.flatMap_singleton']
    exact .plain isPlain
  · by_cases control : char.toNat < 0x20
    · rcases Utf8.encodeChar_cases char with ⟨_, encoded⟩ | ⟨large, _⟩
      · rw [encoded, List.flatMap_singleton]
        exact spells_control control
      · omega
    · by_cases isQuote : char = '"'
      · subst isQuote
        exact .escape (.letter (by decide))
      · have isBackslash : char = '\\' := Decidable.byContradiction fun other =>
          isPlain ⟨by omega, isQuote, other⟩
        subst isBackslash
        exact .escape (.letter (by decide))

theorem quoted_token (text : String) : Grammar.StringToken (quoted text.toList) text := by
  have spelled (chars : List Char) : Characters ((Utf8.encode chars).flatMap encodeByte) chars := by
    induction chars with
    | nil => exact .nil
    | cons char chars ih =>
      rw [Utf8.encode_cons, List.flatMap_append]
      exact .cons (spells_encode char) ih
  have token := Grammar.StringToken.mk (spelled text.toList)
  rwa [String.ofList_toList] at token

end Escape

end TypedJson
