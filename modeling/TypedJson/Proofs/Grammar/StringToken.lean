import TypedJson.Proofs.Grammar.Utf8
import TypedJson.StringToken

/-! The grammar of string tokens. Between its quotes a token spells its characters one after the
other: each by its own UTF-8 form, by an escape with one letter, or by one or two escaped code
units. Scanning reads exactly these tokens, whatever follows, and gives the characters spelled. -/
namespace TypedJson.Grammar

/-- The letters that may follow a backslash, with the character each stands for. -/
def letters : List (UInt8 × Char) :=
  [(0x22, '"'), (0x5c, '\\'), (0x2f, '/'), (0x62, '\x08'), (0x66, '\x0c'), (0x6e, '\n'),
    (0x72, '\x0d'), (0x74, '\t')]

/-- Four hexadecimal digits, in either case, and the code unit they spell. -/
inductive CodeUnit : List UInt8 → Nat → Prop where
  | mk : Hex.digit? a = some w → Hex.digit? b = some x → Hex.digit? c = some y →
      Hex.digit? d = some z → CodeUnit [a, b, c, d] (0x1000 * w + 0x100 * x + 0x10 * y + z)

theorem CodeUnit.length_eq (spelled : CodeUnit digits unit) : digits.length = 4 := by
  cases spelled
  rfl

/-- What stands after the backslash of an escape, and the character it spells. Surrogates are code
units only of a pair, the high one first. -/
inductive Escaped : List UInt8 → Char → Prop where
  | letter : (letter, char) ∈ letters → Escaped [letter] char
  | unit : CodeUnit digits unit → ¬(0xd800 ≤ unit ∧ unit ≤ 0xdfff) →
      Escaped (Ascii.lowerU :: digits) (Char.ofNat unit)
  | pair : CodeUnit digits high → 0xd800 ≤ high → high ≤ 0xdbff →
      CodeUnit digits' low → 0xdc00 ≤ low → low ≤ 0xdfff →
      Escaped (Ascii.lowerU :: (digits ++ Ascii.backslash :: Ascii.lowerU :: digits'))
        (Char.ofNat (0x10000 + 0x400 * (high - 0xd800) + (low - 0xdc00)))

/-- A character that needs no escape. -/
def IsPlain (char : Char) : Prop := 0x20 ≤ char.toNat ∧ char ≠ '"' ∧ char ≠ '\\'

/-- The ways to spell one character inside a string token. -/
inductive Spells : List UInt8 → Char → Prop where
  | plain : IsPlain char → Spells (String.utf8EncodeChar char) char
  | escape : Escaped text char → Spells (Ascii.backslash :: text) char

/-- The characters between the quotes, in order. -/
inductive Characters : List UInt8 → List Char → Prop where
  | nil : Characters [] []
  | cons : Spells text char → Characters rest chars → Characters (text ++ rest) (char :: chars)

/-- A string token and the text it spells. -/
inductive StringToken : List UInt8 → String → Prop where
  | mk : Characters text chars →
      StringToken (Ascii.quote :: (text ++ [Ascii.quote])) (String.ofList chars)

theorem Characters.append (first : Characters text chars) (second : Characters text' chars') :
    Characters (text ++ text') (chars ++ chars') := by
  induction first with
  | nil => exact second
  | cons spells _ ih =>
    rw [List.append_assoc]
    exact .cons spells ih

theorem Characters.plain (plains : ∀ char ∈ chars, IsPlain char) :
    Characters (Utf8.encode chars) chars := by
  induction chars with
  | nil => exact .nil
  | cons char chars ih =>
    rw [Utf8.encode_cons]
    exact .cons (.plain (plains char List.mem_cons_self))
      (ih fun c member => plains c (List.mem_cons_of_mem _ member))

theorem StringToken.head? {token : List UInt8} {value : String} (valid : StringToken token value) :
    token.head? = some Ascii.quote := by
  obtain ⟨_⟩ := valid
  rfl

end TypedJson.Grammar

namespace TypedJson.Escape
open Grammar

private theorem bind_ok {m : Except ε α} {k : α → Except ε β} {value : β}
    (result : (m >>= k) = .ok value) : ∃ x, m = .ok x ∧ k x = .ok value := by
  cases m with
  | error error => cases result
  | ok x => exact ⟨x, rfl, result⟩

variable {letter : UInt8} {char : Char} {text digits digits' rest bytes : List UInt8}
  {unit high low distance size : Nat}

theorem character?_eq_some_iff : character? letter = some char ↔ (letter, char) ∈ letters := by
  constructor
  · intro known
    unfold character? at known
    split at known <;> cases known <;> decide
  · intro known
    simp only [letters, List.mem_cons, Prod.mk.injEq, List.not_mem_nil, or_false] at known
    rcases known with ⟨rfl, rfl⟩ | ⟨rfl, rfl⟩ | ⟨rfl, rfl⟩ | ⟨rfl, rfl⟩ | ⟨rfl, rfl⟩ | ⟨rfl, rfl⟩ |
      ⟨rfl, rfl⟩ | ⟨rfl, rfl⟩ <;> rfl

theorem codeUnit_complete (spelled : CodeUnit digits unit) :
    codeUnit distance (digits ++ rest) = .ok unit := by
  obtain ⟨hw, hx, hy, hz⟩ := spelled
  simp only [codeUnit, List.cons_append, List.nil_append, List.length_cons, hexValue, hw, hx, hy,
    hz, List.take_succ_cons, List.take_zero]
  rw [if_neg (by omega)]
  exact congrArg Except.ok (by omega)

theorem codeUnit_sound (read : codeUnit distance bytes = .ok unit) :
    ∃ digits, CodeUnit digits unit ∧ bytes = digits ++ bytes.drop 4 := by
  match bytes with
  | [] | [_] | [_, _] | [_, _, _] => contradiction
  | a :: b :: c :: d :: rest =>
    simp only [codeUnit, List.length_cons, if_neg (show ¬rest.length + 1 + 1 + 1 + 1 < 4 by omega),
      List.take_succ_cons, List.take_zero, hexValue] at read
    cases hw : Hex.digit? a with
    | none => simp only [hw, reduceCtorEq] at read
    | some w =>
    cases hx : Hex.digit? b with
    | none => simp only [hw, hx, reduceCtorEq] at read
    | some x =>
    cases hy : Hex.digit? c with
    | none => simp only [hw, hx, hy, reduceCtorEq] at read
    | some y =>
    cases hz : Hex.digit? d with
    | none => simp only [hw, hx, hy, hz, reduceCtorEq] at read
    | some z =>
      simp only [hw, hx, hy, hz, Except.ok.injEq] at read
      refine ⟨[a, b, c, d], ?_, rfl⟩
      have := CodeUnit.mk hw hx hy hz
      rwa [show 0x1000 * w + 0x100 * x + 0x10 * y + z = unit by omega] at this

theorem decodeUnit_complete_unit (spelled : CodeUnit digits unit)
    (single : ¬(0xd800 ≤ unit ∧ unit ≤ 0xdfff)) :
    decodeUnit distance (digits ++ rest) = .ok (Char.ofNat unit, 6) := by
  have high : isHighSurrogate unit = false := by
    simp only [isHighSurrogate, Bool.and_eq_false_iff, decide_eq_false_iff_not]; omega
  have low : isLowSurrogate unit = false := by
    simp only [isLowSurrogate, Bool.and_eq_false_iff, decide_eq_false_iff_not]; omega
  simp [decodeUnit, codeUnit_complete spelled, high, low, bind, Except.bind, pure, Except.pure]

theorem decodeUnit_complete_pair (spelled : CodeUnit digits high) (least : 0xd800 ≤ high)
    (most : high ≤ 0xdbff) (spelled' : CodeUnit digits' low) (least' : 0xdc00 ≤ low)
    (most' : low ≤ 0xdfff) :
    decodeUnit distance (digits ++ Ascii.backslash :: Ascii.lowerU :: (digits' ++ rest)) =
      .ok (Char.ofNat (0x10000 + 0x400 * (high - 0xd800) + (low - 0xdc00)), 12) := by
  have first : isHighSurrogate high = true := by simp [isHighSurrogate, least, most]
  have second : isLowSurrogate low = true := by simp [isLowSurrogate, least', most']
  have dropped : (digits ++ Ascii.backslash :: Ascii.lowerU :: (digits' ++ rest)).drop 4 =
      Ascii.backslash :: Ascii.lowerU :: (digits' ++ rest) := List.drop_left' spelled.length_eq
  rw [decodeUnit, codeUnit_complete spelled]
  change (if isHighSurrogate high = true then _ else _) = _
  rw [if_pos first, dropped]
  change (codeUnit (distance + 8) (digits' ++ rest) >>= _) = _
  rw [codeUnit_complete spelled']
  change (if isLowSurrogate low = true then _ else _) = _
  rw [if_pos second]
  rfl

theorem decode_complete (spelled : Escaped text char) :
    decode distance (text ++ rest) = .ok (char, text.length + 1) := by
  cases spelled with
  | letter known =>
    rw [List.singleton_append, decode, character?_eq_some_iff.mpr known]
    rfl
  | @unit digits unit spelled single =>
    rw [List.cons_append, decode]
    simp only [show character? Ascii.lowerU = none from rfl, BEq.rfl, if_true]
    rw [decodeUnit_complete_unit spelled single, List.length_cons, spelled.length_eq]
  | @pair digits high digits' low spelled least most spelled' least' most' =>
    rw [List.cons_append, decode]
    simp only [show character? Ascii.lowerU = none from rfl, BEq.rfl, if_true, List.append_assoc,
      List.cons_append]
    rw [decodeUnit_complete_pair spelled least most spelled' least' most']
    simp [spelled.length_eq, spelled'.length_eq]

theorem decodeUnit_sound (read : decodeUnit distance bytes = .ok (char, size)) :
    ∃ text, Escaped (Ascii.lowerU :: text) char ∧ size = text.length + 2 ∧
      ∃ rest, bytes = text ++ rest := by
  simp only [decodeUnit] at read
  obtain ⟨high, first, read⟩ := bind_ok read
  obtain ⟨digits, spelled, split⟩ := codeUnit_sound first
  have length := spelled.length_eq
  split at read
  case isTrue isHigh =>
    simp only [isHighSurrogate, Bool.and_eq_true, decide_eq_true_eq] at isHigh
    split at read
    case h_2 => contradiction
    case h_1 rest dropped =>
      obtain ⟨low, second, read⟩ := bind_ok read
      obtain ⟨digits', spelled', split'⟩ := codeUnit_sound second
      have length' := spelled'.length_eq
      split at read
      case isFalse => contradiction
      case isTrue isLow =>
        simp only [isLowSurrogate, Bool.and_eq_true, decide_eq_true_eq] at isLow
        obtain ⟨rfl, rfl⟩ := Prod.mk.inj (Except.ok.inj read)
        rw [supplementary]
        refine ⟨_, .pair spelled isHigh.1 isHigh.2 spelled' isLow.1 isLow.2, ?_, rest.drop 4, ?_⟩
        · simp [length, length']
        · calc
            bytes = digits ++ bytes.drop 4 := split
            _ = digits ++ Ascii.backslash :: Ascii.lowerU :: rest := congrArg (digits ++ ·) dropped
            _ = digits ++ Ascii.backslash :: Ascii.lowerU :: (digits' ++ rest.drop 4) := by
              rw [← split']
            _ = _ := by simp
  case isFalse isHigh =>
    split at read
    case isTrue => contradiction
    case isFalse isLow =>
      cases read
      refine ⟨digits, .unit spelled ?_, by rw [length], bytes.drop 4, split⟩
      simp only [isHighSurrogate, isLowSurrogate, Bool.and_eq_true, decide_eq_true_eq] at *
      omega

theorem decode_sound (read : decode distance bytes = .ok (char, size)) :
    ∃ text, Escaped text char ∧ size = text.length + 1 ∧ ∃ rest, bytes = text ++ rest := by
  cases bytes with
  | nil => contradiction
  | cons letter rest =>
    rw [decode] at read
    split at read
    case h_1 known =>
      cases read
      exact ⟨[letter], .letter (character?_eq_some_iff.mp known), rfl, rest, rfl⟩
    case h_2 =>
      split at read
      case isFalse => contradiction
      case isTrue isUnit =>
        obtain ⟨text, spelled, same, more, split⟩ := decodeUnit_sound read
        rw [beq_iff_eq.mp isUnit]
        exact ⟨_, spelled, same, more, congrArg (_ :: ·) split⟩

end TypedJson.Escape

namespace TypedJson.StringToken
open Grammar

variable {text run rest bytes : List UInt8} {char : Char} {chars : List Char}
  {delimiter : UInt8} {before : List Char} {distance total : Nat}

/-- A character is plain if its form holds neither delimiters nor control characters. -/
theorem isPlain_iff : IsPlain char ↔ ∀ byte ∈ String.utf8EncodeChar char,
    Ascii.isDelimiter byte = false ∧ Ascii.isControl byte = false := by
  rcases Utf8.encodeChar_cases char with ⟨ascii, encoded⟩ | ⟨large, above⟩
  · have size : (UInt8.ofNat char.toNat).toNat = char.toNat := by rw [UInt8.toNat_ofNat']; omega
    have same : ∀ other : Char, other.toNat < 0x80 →
        (UInt8.ofNat char.toNat = UInt8.ofNat other.toNat ↔ char = other) := by
      intro other small
      rw [← UInt8.toNat_inj, size, UInt8.toNat_ofNat', ← Char.toNat_inj]
      omega
    have isQuote := same '"' (by decide)
    have isBackslash := same '\\' (by decide)
    simp only [encoded, List.mem_singleton, forall_eq, IsPlain, Ascii.isDelimiter,
      Bool.or_eq_false_iff, beq_eq_false_iff_ne, Ascii.isControl, decide_eq_false_iff_not,
      UInt8.lt_iff_toNat_lt, size, Nat.not_lt, ne_eq]
    rw [← isQuote, ← isBackslash]
    exact and_comm
  · have plain : IsPlain char := by
      refine ⟨by omega, ?_, ?_⟩ <;> rintro rfl <;> contradiction
    apply iff_of_true plain
    intro byte member
    have least := above byte member
    have ne_quote : byte ≠ Ascii.quote := by rintro rfl; contradiction
    have ne_backslash : byte ≠ Ascii.backslash := by rintro rfl; contradiction
    constructor
    · simp [Ascii.isDelimiter, ne_quote, ne_backslash]
    · rw [Ascii.isControl, decide_eq_false_iff_not, UInt8.lt_iff_toNat_lt, Nat.not_lt]
      exact Nat.le_trans (by decide) least

theorem plain_complete (plains : ∀ char ∈ chars, IsPlain char) :
    plain distance (Utf8.encode chars) = .ok chars := by
  have inside : (Utf8.encode chars).findIdx? Ascii.isControl = none := by
    rw [List.findIdx?_eq_none_iff]
    intro byte member
    obtain ⟨char, ofText, member⟩ := List.mem_flatMap.mp member
    exact (isPlain_iff.mp (plains char ofText) byte member).2
  simp only [plain, inside, Utf8.decode_encode]

theorem plain_sound (outside : ∀ byte ∈ run, Ascii.isDelimiter byte = false)
    (read : plain distance run = .ok chars) :
    run = Utf8.encode chars ∧ ∀ char ∈ chars, IsPlain char := by
  rw [plain] at read
  split at read
  case h_1 => contradiction
  case h_2 inside =>
    rw [List.findIdx?_eq_none_iff] at inside
    split at read
    case h_2 => contradiction
    case h_1 decoded =>
      cases read
      have same := Utf8.decode_sound decoded
      refine ⟨same, fun char ofText => isPlain_iff.mpr fun byte member => ?_⟩
      have ofRun : byte ∈ run := same ▸ List.mem_flatMap.mpr ⟨char, ofText, member⟩
      exact ⟨outside byte ofRun, inside byte ofRun⟩

/-- Text is read up to the first delimiter, if there is one. -/
theorem exists_run (bytes : List UInt8) : (∀ byte ∈ bytes, Ascii.isDelimiter byte = false) ∨
    ∃ run delimiter rest, (∀ byte ∈ run, Ascii.isDelimiter byte = false) ∧
      Ascii.isDelimiter delimiter = true ∧ bytes = run ++ delimiter :: rest := by
  induction bytes with
  | nil => exact .inl (by simp)
  | cons first bytes ih =>
    cases isDelimiter : Ascii.isDelimiter first with
    | true => exact .inr ⟨[], first, bytes, by simp, isDelimiter, rfl⟩
    | false =>
      rcases ih with outside | ⟨run, delimiter, rest, outside, found, rfl⟩
      · exact .inl (List.forall_mem_cons.mpr ⟨isDelimiter, outside⟩)
      · exact .inr ⟨first :: run, delimiter, rest, List.forall_mem_cons.mpr ⟨isDelimiter, outside⟩,
          found, rfl⟩

theorem body_outside (outside : ∀ byte ∈ bytes, Ascii.isDelimiter byte = false) :
    body distance bytes = .error ⟨.unterminatedString, distance + bytes.length, true⟩ := by
  have taken : bytes.takeWhile (fun byte => !Ascii.isDelimiter byte) = bytes := by
    rw [← List.append_nil bytes, List.takeWhile_append_of_pos (by simpa using outside)]
    rfl
  rw [body]
  split
  case h_1 => rfl
  case h_2 dropped => simp [taken] at dropped

/-- What is left to read once the run up to the next delimiter is known. -/
theorem body_append (outside : ∀ byte ∈ run, Ascii.isDelimiter byte = false)
    (isDelimiter : Ascii.isDelimiter delimiter = true) :
    body distance (run ++ delimiter :: rest) = (do
      let chars ← plain distance run
      if delimiter == Ascii.quote then return (chars, distance + run.length + 1)
      else
        let (char, size) ← Escape.decode (distance + run.length) rest
        let (following, total) ← body (distance + run.length + size) (rest.drop (size - 1))
        return (chars ++ char :: following, total)) := by
  have taken : (run ++ delimiter :: rest).takeWhile (fun byte => !Ascii.isDelimiter byte) = run := by
    rw [List.takeWhile_append_of_pos (by simpa using outside),
      List.takeWhile_cons_of_neg (by simp [isDelimiter]), List.append_nil]
  rw [body]
  split
  case h_1 dropped => simp [taken] at dropped
  case h_2 first more dropped =>
    rw [taken, List.drop_left, List.cons.injEq] at dropped
    obtain ⟨rfl, rfl⟩ := dropped
    rw [taken]

theorem encode_outside (plains : ∀ char ∈ chars, IsPlain char) :
    ∀ byte ∈ Utf8.encode chars, Ascii.isDelimiter byte = false := by
  intro byte member
  obtain ⟨char, ofText, member⟩ := List.mem_flatMap.mp member
  exact (isPlain_iff.mp (plains char ofText) byte member).1

/-- Characters spelled plainly are gathered in `before` until an escape or the quote ends the run,
for that is how far reading looks at once. -/
theorem body_complete (spelled : Characters text chars) (plains : ∀ char ∈ before, IsPlain char) :
    body distance (Utf8.encode before ++ (text ++ Ascii.quote :: rest)) =
      .ok (before ++ chars, distance + (Utf8.encode before ++ text).length + 1) := by
  induction spelled generalizing before distance with
  | nil =>
    rw [List.nil_append, body_append (encode_outside plains) rfl, plain_complete plains]
    simp [bind, Except.bind, pure, Except.pure]
  | @cons first char following chars spells _ ih =>
    cases spells with
    | plain isPlain =>
      have plains' : ∀ c ∈ before ++ [char], IsPlain c := by
        intro c member
        rcases List.mem_append.mp member with h | h
        · exact plains c h
        · rwa [List.mem_singleton.mp h]
      have read := @ih _ distance plains'
      have same : Utf8.encode (before ++ [char]) =
          Utf8.encode before ++ String.utf8EncodeChar char := by
        rw [Utf8.encode_append, Utf8.encode_cons]
        exact congrArg _ (List.append_nil _)
      rw [same] at read
      simpa only [List.append_assoc, List.singleton_append] using read
    | @escape text _ escaped =>
      have read := @ih [] (distance + (Utf8.encode before).length + (text.length + 1)) (by simp)
      simp only [Utf8.encode_nil, List.nil_append] at read
      rw [List.append_assoc, List.cons_append, body_append (encode_outside plains) rfl,
        plain_complete plains]
      change (Escape.decode _ (text ++ (following ++ Ascii.quote :: rest)) >>= _) = _
      rw [Escape.decode_complete escaped]
      change (body _ ((text ++ (following ++ Ascii.quote :: rest)).drop text.length) >>= _) = _
      rw [List.drop_left, read]
      change Except.ok _ = Except.ok _
      rw [Except.ok.injEq, Prod.mk.injEq]
      constructor
      · rfl
      · simp only [List.cons_append, List.length_append, List.length_cons]
        omega

theorem body_sound (read : body distance bytes = .ok (chars, total)) :
    ∃ text, Characters text chars ∧ total = distance + text.length + 1 ∧
      ∃ rest, bytes = text ++ Ascii.quote :: rest := by
  induction length : bytes.length using Nat.strongRecOn generalizing bytes distance chars total with
  | _ count ih =>
  rcases exists_run bytes with outside | ⟨run, delimiter, rest, outside, isDelimiter, rfl⟩
  · rw [body_outside outside] at read
    contradiction
  rw [body_append outside isDelimiter] at read
  obtain ⟨before, plainRead, read⟩ := Escape.bind_ok read
  obtain ⟨rfl, plains⟩ := plain_sound outside plainRead
  have spelled := Characters.plain plains
  split at read
  case isTrue isQuote =>
    cases read
    exact ⟨_, spelled, rfl, rest, by rw [beq_iff_eq.mp isQuote]⟩
  case isFalse notQuote =>
    have isBackslash : delimiter = Ascii.backslash := by
      simpa [Ascii.isDelimiter, notQuote] using isDelimiter
    obtain ⟨⟨char, size⟩, escaped, read⟩ := Escape.bind_ok read
    obtain ⟨⟨following, last⟩, more, read⟩ := Escape.bind_ok read
    obtain ⟨rfl, rfl⟩ := Prod.mk.inj (Except.ok.inj read)
    obtain ⟨escape, isEscape, rfl, left, rfl⟩ := Escape.decode_sound escaped
    rw [Nat.add_sub_cancel, List.drop_left] at more
    have shorter : left.length < count := by
      simp only [List.length_append, List.length_cons] at length
      omega
    obtain ⟨text, spelled', rfl, rest, rfl⟩ := ih _ shorter more rfl
    refine ⟨_, spelled.append (.cons (.escape isEscape) spelled'), ?_, rest, ?_⟩
    · simp only [List.length_append, List.length_cons]
      omega
    · rw [isBackslash]
      simp

theorem scan_complete {token : List UInt8} {text : String}
    (spelled : Grammar.StringToken token text) :
    scan (token ++ rest) = .ok (text, token.length) := by
  obtain ⟨spelled⟩ := spelled
  have read : body 1 (Utf8.encode [] ++ (_ ++ Ascii.quote :: rest)) = _ :=
    body_complete spelled (by simp)
  rw [Utf8.encode_nil, List.nil_append, List.nil_append] at read
  rw [List.cons_append, List.append_assoc, List.singleton_append]
  change (body 1 _ >>= _) = _
  rw [List.drop_succ_cons, List.drop_zero, read]
  change Except.ok _ = Except.ok _
  rw [Except.ok.injEq, Prod.mk.injEq]
  constructor
  · rfl
  · simp only [List.nil_append, List.length_cons, List.length_append, List.length_nil]
    omega

theorem scan_sound {text : String} {size : Nat}
    (read : scan (Ascii.quote :: bytes) = .ok (text, size)) :
    ∃ token rest, Grammar.StringToken token text ∧ size = token.length ∧
      Ascii.quote :: bytes = token ++ rest := by
  obtain ⟨⟨chars, total⟩, more, read⟩ := Escape.bind_ok read
  obtain ⟨rfl, rfl⟩ := Prod.mk.inj (Except.ok.inj read)
  obtain ⟨body, spelled, rfl, rest, same⟩ := body_sound more
  refine ⟨_, rest, .mk spelled, ?_, ?_⟩
  · simp only [List.length_cons, List.length_append, List.length_nil]
    omega
  · rw [List.drop_succ_cons, List.drop_zero] at same
    rw [same]
    simp

end TypedJson.StringToken
