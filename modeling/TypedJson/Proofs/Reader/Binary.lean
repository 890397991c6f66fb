import TypedJson.Proofs.Grammar.Quoted
import TypedJson.Proofs.Reader.Token
import TypedJson.Proofs.Writer.Appending

/-! Binary data of a fixed width. A string is read as bytes exactly if it has two hexadecimal digits
for each of them, in either case, and the bytes are written back as the same digits in lower case.
Any other string is refused for its length or else for its first byte that is no digit. The bytes
are put together and taken apart in place, in words of one byte, so this is shown too. -/
namespace TypedJson

open Grammar

namespace Hex

/-- The digits in either case. -/
def alphabet : List UInt8 := Utf8.encode "0123456789abcdefABCDEF".toList

/-- A letter in lower case, and any other byte as it is. -/
def lower (byte : UInt8) : UInt8 := if 0x41 ≤ byte && byte ≤ 0x5a then byte + 0x20 else byte

variable {text front back : List UInt8} {byte digit : UInt8} {width : Nat}

/-! In words of one byte -/

/-- The value of a digit as a byte. -/
def nibble? (digit : UInt8) : Option UInt8 :=
  if 0x30 ≤ digit && digit ≤ 0x39 then some (digit - 0x30)
  else if 0x61 ≤ digit && digit ≤ 0x66 then some (digit - 0x61 + 10)
  else if 0x41 ≤ digit && digit ≤ 0x46 then some (digit - 0x41 + 10)
  else none

/-- The byte that two digits spell. -/
def joined (high low : UInt8) : UInt8 := (nibble? high).getD 0 <<< 4 ||| (nibble? low).getD 0

/-- Puts the bytes that pairs of digits spell in place of those of a destination. -/
def overwrite : (dest text : List UInt8) → List UInt8
  | _ :: dest, high :: low :: text => joined high low :: overwrite dest text
  | dest, _ => dest

theorem length_overwrite (dest text : List UInt8) : (overwrite dest text).length = dest.length := by
  fun_induction overwrite dest text with
  | case1 _ dest high low text ih => rw [List.length_cons, List.length_cons, ih]
  | case2 => rfl

/-- Reads bytes over those of a destination, which is touched only if all of the text is sound. -/
def decodeOver (dest : Vector UInt8 width) (text : List UInt8) :
    Except Fault (Vector UInt8 width) :=
  if text.length = 2 * width then
    match text.findIdx? (fun byte => (nibble? byte).isNone) with
    | some index => .error (.digit index)
    | none => .ok ⟨(overwrite dest.toList text).toArray, by simp [length_overwrite]⟩
  else .error (.length (2 * width) text.length)

/-- The digits of a byte out of a table. -/
def splitByte (byte : UInt8) : List UInt8 :=
  [table.getD (byte >>> 4).toNat 0, table.getD (byte &&& 0x0f).toNat 0]
where
  table : List UInt8 := Utf8.encode "0123456789abcdef".toList

theorem nibble?_eq (digit : UInt8) : (nibble? digit).map UInt8.toNat = digit? digit := by
  revert digit
  exact forall_byte (by decide)

theorem joined_eq (high low : UInt8) :
    joined high low = UInt8.ofNat (16 * (digit? high).getD 0 + (digit? low).getD 0) := by
  have small : ∀ digit, (nibble? digit).getD 0 < 16 := forall_byte (by decide)
  have shifts : ∀ high < 16, ∀ low < 16,
      UInt8.ofNat high <<< 4 ||| UInt8.ofNat low = UInt8.ofNat (16 * high + low) := by decide
  have value (digit : UInt8) : (digit? digit).getD 0 = ((nibble? digit).getD 0).toNat := by
    rw [← nibble?_eq]
    cases nibble? digit <;> rfl
  have same := shifts _ (UInt8.lt_iff_toNat_lt.mp (small high)) _
    (UInt8.lt_iff_toNat_lt.mp (small low))
  rw [UInt8.ofNat_toNat, UInt8.ofNat_toNat] at same
  rw [joined, same, value, value]

theorem splitByte_eq (byte : UInt8) : splitByte byte = encodeByte byte := by
  revert byte
  exact forall_byte (by decide)

theorem overwrite_eq {dest : List UInt8} (fits : text.length = 2 * dest.length) :
    overwrite dest text = pairs text := by
  induction dest generalizing text with
  | nil => rw [List.length_eq_zero_iff.mp fits]; rfl
  | cons old dest ih =>
    match text with
    | [] => contradiction
    | [_] => simp only [List.length_cons, List.length_nil] at fits; omega
    | high :: low :: text =>
      have fits : text.length = 2 * dest.length := by
        simp only [List.length_cons] at fits
        omega
      rw [overwrite, pairs, ih fits, joined_eq]

/-- Whatever is in the destination, it is filled with the bytes that are spelled. -/
theorem decodeOver_eq (dest : Vector UInt8 width) (text : List UInt8) :
    decodeOver dest text = decode width text := by
  rw [decodeOver, decode]
  have same : (fun byte => (nibble? byte).isNone) = fun byte => !isDigit byte := by
    funext byte
    rw [isDigit, ← nibble?_eq]
    cases nibble? byte <;> rfl
  by_cases fits : text.length = 2 * width
  · have filled : overwrite dest.toList text = pairs text :=
      overwrite_eq (by rwa [Vector.length_toList])
    rw [if_pos fits, dif_pos fits, same]
    cases text.findIdx? fun byte => !isDigit byte with
    | some => rfl
    | none => simp only [filled]
  · rw [if_neg fits, dif_neg fits]

/-! Digits -/

theorem mem_alphabet_iff (byte : UInt8) : byte ∈ alphabet ↔ isDigit byte = true := by
  have digits : alphabet.all isDigit = true := by decide
  have found : ∀ byte, isDigit byte = true → alphabet.contains byte = true :=
    forall_byte (by decide)
  constructor
  · exact List.all_eq_true.mp digits byte
  · exact fun digit => List.contains_iff_mem.mp (found byte digit)

/-- The digits of a byte are those that spelled it, in lower case. -/
theorem encodeByte_joined (high : isDigit byte = true) (low : isDigit digit = true) :
    encodeByte (UInt8.ofNat (16 * (digit? byte).getD 0 + (digit? digit).getD 0)) =
      [lower byte, lower digit] := by
  have back : ∀ byte, isDigit byte = true →
      (digit? byte).getD 0 < 16 ∧ Hex.digit ((digit? byte).getD 0) = lower byte :=
    forall_byte (by decide)
  obtain ⟨small, upper⟩ := back byte high
  obtain ⟨small', lower⟩ := back digit low
  have value : (UInt8.ofNat (16 * (digit? byte).getD 0 + (digit? digit).getD 0)).toNat =
      16 * (digit? byte).getD 0 + (digit? digit).getD 0 := by
    rw [UInt8.toNat_ofNat']
    omega
  have first : (16 * (digit? byte).getD 0 + (digit? digit).getD 0) / 16 = (digit? byte).getD 0 := by
    omega
  have second : (16 * (digit? byte).getD 0 + (digit? digit).getD 0) % 16 =
      (digit? digit).getD 0 := by
    omega
  rw [encodeByte, value, first, second, upper, lower]

theorem encode_pairs (even : text.length = 2 * width)
    (digits : ∀ byte ∈ text, isDigit byte = true) : encode (pairs text) = text.map lower := by
  induction width generalizing text with
  | zero => rw [List.length_eq_zero_iff.mp even]; rfl
  | succ width ih =>
    match text with
    | [] => contradiction
    | [_] => simp only [List.length_cons, List.length_nil] at even; omega
    | high :: low :: text =>
      obtain ⟨isHigh, digits⟩ := List.forall_mem_cons.mp digits
      obtain ⟨isLow, digits⟩ := List.forall_mem_cons.mp digits
      have even : text.length = 2 * width := by
        simp only [List.length_cons] at even
        omega
      rw [pairs, encode, List.flatMap_cons, encodeByte_joined isHigh isLow, ← encode,
        ih even digits]
      rfl

theorem decode_digits (fits : text.length = 2 * width)
    (digits : ∀ byte ∈ text, isDigit byte = true) :
    ∃ bytes, decode width text = .ok bytes ∧ encode bytes.toList = text.map lower := by
  have sound : text.findIdx? (fun byte => !isDigit byte) = none := by
    refine List.findIdx?_eq_none_iff.mpr fun byte member => ?_
    rw [digits byte member]
    rfl
  refine ⟨⟨(pairs text).toArray, by simp [length_pairs, fits]⟩, ?_, encode_pairs fits digits⟩
  simp only [decode, fits, dif_pos, sound]

theorem decode_length (differs : text.length ≠ 2 * width) :
    decode width text = .error (.length (2 * width) text.length) := by
  rw [decode, dif_neg differs]

/-- The first byte that is no digit is to blame. -/
theorem decode_digit (fits : (front ++ byte :: back).length = 2 * width)
    (digits : ∀ byte ∈ front, isDigit byte = true) (other : isDigit byte = false) :
    decode width (front ++ byte :: back) = .error (.digit front.length) := by
  have sound : front.findIdx? (fun byte => !isDigit byte) = none := by
    refine List.findIdx?_eq_none_iff.mpr fun byte member => ?_
    rw [digits byte member]
    rfl
  have found : (front ++ byte :: back).findIdx? (fun byte => !isDigit byte) =
      some front.length := by
    simp [List.findIdx?_append, sound, List.findIdx?_cons, other]
  simp only [decode, fits, dif_pos, found]

/-- What is not all digits has a first byte that is none. -/
theorem exists_other (some : ¬∀ byte ∈ text, isDigit byte = true) : ∃ front byte back,
    text = front ++ byte :: back ∧ (∀ byte ∈ front, isDigit byte = true) ∧
      isDigit byte = false := by
  induction text with
  | nil => exact absurd nofun some
  | cons first text ih =>
    cases isDigit' : isDigit first with
    | false => exact ⟨[], first, text, rfl, nofun, isDigit'⟩
    | true =>
      have later : ¬∀ byte ∈ text, isDigit byte = true :=
        fun digits => some (List.forall_mem_cons.mpr ⟨isDigit', digits⟩)
      obtain ⟨front, byte, back, rfl, digits, other⟩ := ih later
      exact ⟨first :: front, byte, back, rfl, List.forall_mem_cons.mpr ⟨isDigit', digits⟩, other⟩

theorem decode_ok_iff : (∃ bytes, decode width text = .ok bytes) ↔
    text.length = 2 * width ∧ ∀ digit ∈ text, digit ∈ alphabet := by
  simp only [mem_alphabet_iff]
  constructor
  · rintro ⟨bytes, decoded⟩
    have fits : text.length = 2 * width := by
      by_contra differs
      rw [decode_length differs] at decoded
      contradiction
    refine ⟨fits, ?_⟩
    by_contra some
    obtain ⟨front, other, back, rfl, sound, isOther⟩ := exists_other some
    rw [decode_digit fits sound isOther] at decoded
    contradiction
  · rintro ⟨fits, digits⟩
    obtain ⟨bytes, decoded, _⟩ := decode_digits fits digits
    exact ⟨bytes, decoded⟩

/-- Bytes are written as the text that was read as them, in lower case. -/
theorem encode_decode {bytes : Vector UInt8 width} (decoded : decode width text = .ok bytes) :
    encode bytes.toList = text.map lower := by
  obtain ⟨fits, digits⟩ := decode_ok_iff.mp ⟨bytes, decoded⟩
  simp only [mem_alphabet_iff] at digits
  obtain ⟨bytes', decoded', encoded⟩ := decode_digits fits digits
  rw [← encoded, Except.ok.inj (decoded.symm.trans decoded')]

end Hex

namespace Reader

variable {before middle after : Reader} {space text rest : List UInt8} {spelled : String}

/-- Where a string token stands, what is read as binary is settled by the text it spells. -/
theorem binary_token (width : Nat) (isSpace : Space space)
    (token : Grammar.StringToken text spelled) (spacePasses : Passes before space middle)
    (textPasses : Passes middle text after) :
    (binary width).run before =
      match Hex.decode width (Utf8.encode spelled.toList) with
      | .ok bytes => .ok bytes after
      | .error fault =>
        .error ⟨SchemaError.fixedBinary, some fault.message, middle.offset⟩ after := by
  have head : middle.unread.head? = some Ascii.quote := by
    rw [textPasses.unread, List.head?_append, token.head?, Option.some_or]
  rw [binary, run_bind_of_ok (expect_complete isSpace spacePasses head rfl rfl),
    run_bind_of_ok run_get, run_bind_of_ok (stringToken_complete token textPasses)]
  cases Hex.decode width (Utf8.encode spelled.toList) <;> rfl

/-- The same with the offsets counted. -/
theorem binary_at (width : Nat) (isSpace : Space space) (token : Grammar.StringToken text spelled)
    (unread : before.unread = space ++ (text ++ rest)) :
    (binary width).run before =
      let start := before.offset + space.length
      match Hex.decode width (Utf8.encode spelled.toList) with
      | .ok bytes => .ok bytes ⟨rest, start + text.length, before.depth⟩
      | .error fault => .error ⟨SchemaError.fixedBinary, some fault.message, start⟩
          ⟨rest, start + text.length, before.depth⟩ :=
  @binary_token before ⟨text ++ rest, before.offset + space.length, before.depth⟩
    ⟨rest, before.offset + space.length + text.length, before.depth⟩ _ _ _ width isSpace token
    ⟨unread, rfl, rfl⟩ ⟨rfl, rfl, rfl⟩

/-- A string is read as binary exactly if the text it spells, with its escapes decoded, has two
digits for each byte, in either case. The bytes are written as those digits in lower case, and what
is written for any bytes is read as them. A text of another length is refused for the length, in
bytes, and one of the right length for its first byte that is no digit. Bytes that are put together
in a destination, or taken apart by a table, are the same. -/
theorem binary_exact (width : Nat) (isSpace : Space space)
    (token : Grammar.StringToken text spelled) (unread : before.unread = space ++ (text ++ rest)) :
    let digits := Utf8.encode spelled.toList
    let start := before.offset + space.length
    let after : Reader := ⟨rest, start + text.length, before.depth⟩
    ((∃ value last, (binary width).run before = .ok value last) ↔
        digits.length = 2 * width ∧ ∀ digit ∈ digits, digit ∈ Hex.alphabet) ∧
      (∀ value last, (binary width).run before = .ok value last → last = after ∧
        Writer.Appends (Writer.binary value.toList)
          (Ascii.quote :: digits.map Hex.lower ++ [Ascii.quote])) ∧
      (∀ value : Vector UInt8 width, ∃ written,
        Writer.Appends (Writer.binary value.toList) written ∧
          ∀ before space rest, Space space → before.unread = space ++ (written ++ rest) →
            (binary width).run before =
              .ok value ⟨rest, before.offset + space.length + written.length, before.depth⟩) ∧
      (digits.length ≠ 2 * width → (binary width).run before =
        .error ⟨SchemaError.fixedBinary,
          some s!"expected {2 * width} hex characters but got {digits.length}", start⟩ after) ∧
      (∀ front other back, digits.length = 2 * width → digits = front ++ other :: back →
        (∀ digit ∈ front, digit ∈ Hex.alphabet) → other ∉ Hex.alphabet →
          (binary width).run before =
            .error ⟨SchemaError.fixedBinary,
              some s!"invalid hex character at index {front.length}", start⟩ after) ∧
      (∀ dest : Vector UInt8 width, Hex.decodeOver dest digits = Hex.decode width digits) ∧
      ∀ bytes : List UInt8, bytes.flatMap Hex.splitByte = Hex.encode bytes := by
  intro digits start after
  have read : (binary width).run before = match Hex.decode width digits with
      | .ok bytes => .ok bytes after
      | .error fault => .error ⟨SchemaError.fixedBinary, some fault.message, start⟩ after :=
    binary_at width isSpace token unread
  refine ⟨?_, ?_, ?_, ?_, ?_, fun dest => Hex.decodeOver_eq dest digits, ?_⟩
  · rw [← Hex.decode_ok_iff, read]
    cases Hex.decode width digits with
    | ok bytes => exact iff_of_true ⟨bytes, after, rfl⟩ ⟨bytes, rfl⟩
    | error => exact iff_of_false (by rintro ⟨_, _, run⟩; contradiction) (by rintro ⟨_, ⟨⟩⟩)
  · intro value last run
    cases decoded : Hex.decode width digits with
    | ok bytes =>
      rw [read, decoded] at run
      obtain ⟨rfl, rfl⟩ := EStateM.Result.ok.inj run
      rw [← Hex.encode_decode decoded]
      exact ⟨rfl, Writer.appends_scalar _⟩
    | error =>
      rw [read, decoded] at run
      contradiction
  · intro value
    obtain ⟨token, encoded⟩ := Hex.token_encode value.toList
    refine ⟨_, Writer.appends_scalar _, fun before space rest isSpace unread => ?_⟩
    rw [binary_at width isSpace token unread, encoded, Hex.decode_encode]
  · intro differs
    rw [read, Hex.decode_length differs]
    rfl
  · intro front other back fits split sound isOther
    have decoded := Hex.decode_digit (split ▸ fits)
      (fun digit member => (Hex.mem_alphabet_iff digit).mp (sound digit member))
      (Bool.eq_false_iff.mpr (mt (Hex.mem_alphabet_iff other).mpr isOther))
    rw [read, split, decoded]
    rfl
  · intro bytes
    exact List.flatMap_congr fun byte _ => Hex.splitByte_eq byte

/-- With `A` escaped, `"Ab"` is a byte, which is written as `"ab"`. The two bytes of `é` are no
digits, and too few for two bytes. -/
theorem binary_exact_escape :
    (∃ value last, (binary 1).run
        ⟨[0x20, 0x22, 0x5c, 0x75, 0x30, 0x30, 0x34, 0x31, 0x62, 0x22], 0, 0⟩ = .ok value last ∧
      Writer.Appends (Writer.binary value.toList) [0x22, 0x61, 0x62, 0x22]) ∧
    (binary 1).run ⟨[0x22, 0xc3, 0xa9, 0x22], 0, 0⟩ = .error ⟨SchemaError.fixedBinary,
      some "invalid hex character at index 0", 0⟩ ⟨[], 4, 0⟩ ∧
    (binary 2).run ⟨[0x22, 0xc3, 0xa9, 0x22], 0, 0⟩ = .error ⟨SchemaError.fixedBinary,
      some "expected 4 hex characters but got 2", 0⟩ ⟨[], 4, 0⟩ := by
  have blank : Space [0x20] := List.forall_mem_singleton.mpr rfl
  have escaped :
      Grammar.StringToken [0x22, 0x5c, 0x75, 0x30, 0x30, 0x34, 0x31, 0x62, 0x22] "Ab" := by
    have unit : CodeUnit [0x30, 0x30, 0x34, 0x31] (0x1000 * 0 + 0x100 * 0 + 0x10 * 4 + 1) :=
      .mk rfl rfl rfl rfl
    have first : Spells [0x5c, 0x75, 0x30, 0x30, 0x34, 0x31] 'A' := .escape (.unit unit (by decide))
    have second : Spells (String.utf8EncodeChar 'b') 'b' := .plain ⟨by decide, by decide, by decide⟩
    exact .mk (.cons first (.cons second .nil))
  have accented : Grammar.StringToken [0x22, 0xc3, 0xa9, 0x22] "é" := by
    have plain : Spells (String.utf8EncodeChar 'é') 'é' := .plain ⟨by decide, by decide, by decide⟩
    exact .mk (.cons plain .nil)
  refine ⟨?_, ?_, ?_⟩
  · obtain ⟨accepts, writes, _⟩ :=
      @binary_exact ⟨[0x20, 0x22, 0x5c, 0x75, 0x30, 0x30, 0x34, 0x31, 0x62, 0x22], 0, 0⟩ _ _ [] _ 1
        blank escaped rfl
    obtain ⟨value, last, run⟩ := accepts.mpr (by decide +kernel)
    exact ⟨value, last, run, (writes value last run).2⟩
  · obtain ⟨_, _, _, _, refuses, _⟩ :=
      @binary_exact ⟨[0x22, 0xc3, 0xa9, 0x22], 0, 0⟩ _ _ [] _ 1 .nil accented rfl
    exact refuses [] 0xc3 [0xa9] rfl rfl nofun (by decide +kernel)
  · obtain ⟨_, _, _, refuses, _⟩ :=
      @binary_exact ⟨[0x22, 0xc3, 0xa9, 0x22], 0, 0⟩ _ _ [] _ 2 .nil accented rfl
    exact refuses (by decide +kernel)

end Reader

end TypedJson
