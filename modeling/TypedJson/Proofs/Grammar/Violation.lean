import TypedJson.Proofs.Grammar.StringToken
import TypedJson.Proofs.Reader.Failure

/-! What is wrong with a string token, and where. A run of text is searched for its end first, then
for control characters, then for malformed UTF-8, and an escape is taken one code unit at a time. So
the violation that is reported is the first in the order of the checks. All that stands before its
run or its escape is sound, but in the run or the escape itself one that is checked for later may
stand earlier. -/
namespace TypedJson.Grammar

/-- What a string token may begin with. -/
def BeginsToken (text : List UInt8) : Prop := ∃ more value, StringToken (text ++ more) value

/-- What the characters of a string token may begin with. -/
def BeginsCharacters (text : List UInt8) : Prop := ∃ more chars, Characters (text ++ more) chars

/-- What a text in UTF-8 may begin with. -/
def BeginsText (run : List UInt8) : Prop := ∃ more chars, run ++ more = Utf8.encode chars

/-- What may follow the backslash of an escape at first. -/
def BeginsEscape (text : List UInt8) : Prop := ∃ more char, Escaped (text ++ more) char

/-- A violation in a run of text of which `gap` stands before it; `begun` tells whether the text up
to it may begin a token. -/
inductive RunFault : SyntaxError → (gap rest : List UInt8) → (begun : Prop) → Prop where
  /-- Nothing ends the run, so it is not looked at. -/
  | unterminated : (∀ byte ∈ run, Ascii.isDelimiter byte = false) →
      RunFault .unterminatedString run []
        ((∀ byte ∈ run, Ascii.isControl byte = false) ∧ BeginsText run)
  | control : (∀ byte ∈ run, Ascii.isDelimiter byte = false ∧ Ascii.isControl byte = false) →
      Ascii.isControl byte = true →
        RunFault (.controlCharacter byte) run (byte :: rest) (BeginsText run)
  /-- No character is encoded next. -/
  | malformed : (∀ char ∈ chars, IsPlain char) →
      (∀ char, ¬String.utf8EncodeChar char <+: rest) →
        RunFault .invalidUtf8 (Utf8.encode chars) rest True

/-- The start of an escape up to the digits of a code unit: the first one, or that of the low
surrogate. -/
inductive Lead : List UInt8 → Prop where
  | first : Lead [Ascii.lowerU]
  | second : CodeUnit digits high → 0xd800 ≤ high → high ≤ 0xdbff →
      Lead (Ascii.lowerU :: (digits ++ [Ascii.backslash, Ascii.lowerU]))

/-- The error for a byte that is the letter of no escape. -/
def badLetter (letter : UInt8) : SyntaxError :=
  if Ascii.isAscii letter then .invalidEscape (Char.ofUInt8 letter) else .invalidByte letter

/-- The error for a byte that is no hexadecimal digit. -/
def badDigit (byte : UInt8) : SyntaxError :=
  if Ascii.isAscii byte then .invalidHexDigit (Char.ofUInt8 byte) else .invalidByte byte

/-- A violation in an escape of which `gap` stands before it, from the backslash on; `begun` tells
whether the text up to it may begin a token. -/
inductive EscapeFault : SyntaxError → (gap rest : List UInt8) → (begun : Prop) → Prop where
  | ended : EscapeFault .unterminatedString [Ascii.backslash] [] True
  | letter : letter ∉ letters.map Prod.fst → letter ≠ Ascii.lowerU →
      EscapeFault (badLetter letter) [Ascii.backslash] (letter :: rest) True
  /-- Too few bytes are left for a code unit, so they are not looked at. -/
  | cut : Lead lead → digits.length < 4 →
      EscapeFault .unterminatedString (Ascii.backslash :: (lead ++ digits)) []
        (BeginsEscape (lead ++ digits))
  | digit : Lead lead → (∀ byte ∈ digits, Hex.isDigit byte = true) → digits.length < 4 →
      Hex.isDigit byte = false →
        EscapeFault (badDigit byte) (Ascii.backslash :: (lead ++ digits)) (byte :: rest)
          (BeginsEscape (lead ++ digits))
  /-- A low surrogate comes first, or a high one without another code unit. -/
  | lone : CodeUnit digits unit → (0xdc00 ≤ unit ∧ unit ≤ 0xdfff ∨
        0xd800 ≤ unit ∧ unit ≤ 0xdbff ∧ ¬[Ascii.backslash, Ascii.lowerU] <+: rest) →
      EscapeFault (.invalidCodeUnit unit) []
        (Ascii.backslash :: Ascii.lowerU :: (digits ++ rest)) True
  | unpaired : CodeUnit digits high → 0xd800 ≤ high → high ≤ 0xdbff → CodeUnit digits' unit →
      ¬(0xdc00 ≤ unit ∧ unit ≤ 0xdfff) →
        EscapeFault (.invalidCodeUnit unit) (Ascii.backslash :: Ascii.lowerU :: digits)
          (Ascii.backslash :: Ascii.lowerU :: (digits' ++ rest)) True

/-! Characters are spelled one after the other in one way -/

variable {text text' rest rest' front gap run bytes tail : List UInt8} {char char' : Char}
  {chars : List Char} {distance : Nat} {fault : Escape.Fault} {cause : SyntaxError} {begun : Prop}

theorem IsPlain.not_backslash (plain : IsPlain char) :
    String.utf8EncodeChar char ++ rest ≠ Ascii.backslash :: rest' := by
  intro same
  cases encoded : String.utf8EncodeChar char with
  | nil => exact absurd encoded String.utf8EncodeChar_ne_nil
  | cons first more =>
    rw [encoded, List.cons_append] at same
    have outside := (StringToken.isPlain_iff.mp plain first (by simp [encoded])).1
    rw [(List.cons.inj same).1] at outside
    contradiction

theorem Spells.unique (spells : Spells text char) (spells' : Spells text' char')
    (same : text ++ rest = text' ++ rest') : text = text' := by
  cases spells with
  | plain isPlain =>
    cases spells' with
    | plain isPlain' =>
      have first := Utf8.first?_append char rest
      rw [same, Utf8.first?_append] at first
      rw [Option.some.inj first]
    | escape => exact absurd same isPlain.not_backslash
  | @escape text _ escaped =>
    cases spells' with
    | plain isPlain' => exact absurd same.symm isPlain'.not_backslash
    | @escape text' _ escaped' =>
      have same : text ++ rest = text' ++ rest' := List.tail_eq_of_cons_eq same
      have read : Escape.decode 0 (text ++ rest) = .ok (char, text.length + 1) :=
        Escape.decode_complete escaped
      rw [same, Escape.decode_complete escaped', Except.ok.injEq, Prod.mk.injEq] at read
      have length : text.length = text'.length := by omega
      rw [(List.append_inj same length).1]

/-- What follows some characters among others is characters. -/
theorem Characters.cancel (first : Characters front chars)
    (whole : Characters (front ++ tail) all) : ∃ chars', Characters tail chars' := by
  induction first generalizing all with
  | nil => exact ⟨all, whole⟩
  | @cons text char rest chars spells _ ih =>
    generalize same : text ++ rest ++ tail = joined at whole
    rw [List.append_assoc] at same
    cases whole with
    | nil =>
      have nil := (List.append_eq_nil_iff.mp same).1
      cases spells with
      | plain => exact absurd nil String.utf8EncodeChar_ne_nil
      | escape => contradiction
    | cons spells' following =>
      obtain rfl := spells.unique spells' same
      rw [← List.append_cancel_left same] at following
      exact ih following

theorem BeginsCharacters.append_iff (first : Characters front chars) :
    BeginsCharacters (front ++ gap) ↔ BeginsCharacters gap := by
  constructor
  · rintro ⟨more, all, whole⟩
    rw [List.append_assoc] at whole
    obtain ⟨chars', following⟩ := first.cancel whole
    exact ⟨more, chars', following⟩
  · rintro ⟨more, chars', following⟩
    refine ⟨more, chars ++ chars', ?_⟩
    rw [List.append_assoc]
    exact first.append following

/-- The text up to a violation begins a token if what follows the quote begins characters. -/
theorem beginsToken_iff (failed : StringToken.scan (Ascii.quote :: (text ++ rest)) = .error fault) :
    BeginsToken (Ascii.quote :: text) ↔ BeginsCharacters text := by
  constructor
  · rintro ⟨more, value, token⟩
    generalize same : Ascii.quote :: text ++ more = joined at token
    obtain @⟨body, chars, characters⟩ := token
    have same : text ++ more = body ++ [Ascii.quote] := List.tail_eq_of_cons_eq same
    rcases List.eq_nil_or_concat more with rfl | ⟨more, last, rfl⟩
    · -- a token that is whole would not have failed
      rw [List.append_nil] at same
      have read := @StringToken.scan_complete rest _ _ (.mk characters)
      rw [← same, List.cons_append, failed] at read
      contradiction
    · rw [List.concat_eq_append, ← List.append_assoc] at same
      rw [← (List.append_inj' same rfl).1] at characters
      exact ⟨more, chars, characters⟩
  · rintro ⟨more, chars, characters⟩
    have token := StringToken.mk characters
    rw [List.append_assoc] at token
    exact ⟨_, _, token⟩

/-! Runs -/

theorem isPlain_of_large (large : 0x80 ≤ char.toNat) : IsPlain char := by
  refine ⟨by omega, ?_, ?_⟩
  · rintro rfl
    contradiction
  · rintro rfl
    contradiction

/-- A character whose first bytes may stand in a run may stand there itself: it is one of them, or
it is above ASCII. -/
theorem isPlain_of_begins (sound : ∀ byte ∈ run, Ascii.isDelimiter byte = false ∧
      Ascii.isControl byte = false) (nonempty : run ≠ [])
    (begins : String.utf8EncodeChar char = run ++ tail) : IsPlain char := by
  rcases Utf8.encodeChar_cases char with ⟨_, encoded⟩ | ⟨large, _⟩
  · obtain ⟨first, run, rfl⟩ := List.exists_cons_of_ne_nil nonempty
    refine StringToken.isPlain_iff.mpr fun byte member => ?_
    rw [encoded] at begins member
    obtain rfl := (List.cons.inj begins).1
    rw [List.mem_singleton.mp member]
    exact sound _ List.mem_cons_self
  · exact isPlain_of_large large

/-- A run that begins a text begins one of characters that need no escape, for it holds no byte that
needs one. -/
theorem exists_plain (sound : ∀ byte ∈ run, Ascii.isDelimiter byte = false ∧
      Ascii.isControl byte = false) (begins : BeginsText run) :
    ∃ more chars, run ++ more = Utf8.encode chars ∧ ∀ char ∈ chars, IsPlain char := by
  obtain ⟨more, chars, same⟩ := begins
  induction chars generalizing run with
  | nil => exact ⟨[], [], by rw [(List.append_eq_nil_iff.mp same).1]; rfl, nofun⟩
  | cons char chars ih =>
    by_cases nonempty : run = []
    · exact ⟨[], [], by rw [nonempty]; rfl, nofun⟩
    rw [Utf8.encode_cons] at same
    rcases List.append_eq_append_iff.mp same with ⟨left, encoded, _⟩ | ⟨left, rfl, following⟩
    · exact ⟨left, [char], encoded.symm.trans (List.append_nil _).symm,
        List.forall_mem_singleton.mpr (isPlain_of_begins sound nonempty encoded)⟩
    · obtain ⟨first, sound⟩ := List.forall_mem_append.mp sound
      obtain ⟨more, chars, same, plains⟩ := ih sound following.symm
      exact ⟨more, char :: chars, by rw [List.append_assoc, same, Utf8.encode_cons],
        List.forall_mem_cons.mpr ⟨StringToken.isPlain_iff.mpr first, plains⟩⟩

/-- Of characters whose first bytes are a run, those are plain that spell it. -/
theorem Characters.exists_plain (outside : ∀ byte ∈ run, Ascii.isDelimiter byte = false)
    (characters : Characters (run ++ tail) chars) :
    ∃ more chars, run ++ more = Utf8.encode chars ∧ ∀ char ∈ chars, IsPlain char := by
  generalize same : run ++ tail = whole at characters
  induction characters generalizing run with
  | nil => exact ⟨[], [], by rw [(List.append_eq_nil_iff.mp same).1]; rfl, nofun⟩
  | @cons text char rest chars spells _ ih =>
    cases spells with
    | plain isPlain =>
      rcases List.append_eq_append_iff.mp same with ⟨left, encoded, _⟩ | ⟨left, rfl, following⟩
      · exact ⟨left, [char], encoded.symm.trans (List.append_nil _).symm,
          List.forall_mem_singleton.mpr isPlain⟩
      · obtain ⟨_, outside⟩ := List.forall_mem_append.mp outside
        obtain ⟨more, chars, same, plains⟩ := ih outside following.symm
        exact ⟨more, char :: chars, by rw [List.append_assoc, same, Utf8.encode_cons],
          List.forall_mem_cons.mpr ⟨isPlain, plains⟩⟩
    | escape =>
      cases run with
      | nil => exact ⟨[], [], rfl, nofun⟩
      | cons first run =>
        rw [(List.cons.inj same).1] at outside
        exact absurd (outside _ List.mem_cons_self) (by decide)

theorem beginsCharacters_run (outside : ∀ byte ∈ run, Ascii.isDelimiter byte = false) :
    BeginsCharacters run ↔ (∀ byte ∈ run, Ascii.isControl byte = false) ∧ BeginsText run := by
  constructor
  · rintro ⟨more, chars, characters⟩
    obtain ⟨more, chars, same, plains⟩ := characters.exists_plain outside
    refine ⟨fun byte member => ?_, more, chars, same⟩
    have inText : byte ∈ Utf8.encode chars := same ▸ List.mem_append_left more member
    obtain ⟨char, ofText, inChar⟩ := List.mem_flatMap.mp inText
    exact (StringToken.isPlain_iff.mp (plains char ofText) byte inChar).2
  · rintro ⟨sound, begins⟩
    obtain ⟨more, chars, same, plains⟩ :=
      exists_plain (fun byte member => ⟨outside byte member, sound byte member⟩) begins
    exact ⟨more, chars, same ▸ .plain plains⟩

theorem RunFault.begins_iff (fault : RunFault cause gap rest begun) :
    BeginsCharacters gap ↔ begun := by
  cases fault with
  | unterminated outside => exact beginsCharacters_run outside
  | control sound =>
    rw [beginsCharacters_run fun byte member => (sound byte member).1]
    exact and_iff_right fun byte member => (sound byte member).2
  | malformed plains =>
    have characters := Characters.plain plains
    rw [← List.append_nil (Utf8.encode _)] at characters
    exact iff_of_true ⟨_, _, characters⟩ trivial

/-! Escapes -/

theorem CodeUnit.begins_pair {digits : List UInt8} {high : Nat} (spelled : CodeUnit digits high)
    (least : 0xd800 ≤ high) (most : high ≤ 0xdbff) :
    BeginsCharacters (Ascii.backslash :: Ascii.lowerU :: digits) := by
  have low : CodeUnit [0x64, 0x63, 0x30, 0x30] (0x1000 * 13 + 0x100 * 12 + 0x10 * 0 + 0) :=
    .mk rfl rfl rfl rfl
  have pair : Escaped _ _ := .pair spelled least most low (by decide) (by decide)
  have characters := Characters.cons (.escape pair) .nil
  rw [List.append_nil, ← List.cons_append, ← List.cons_append] at characters
  exact ⟨_, _, characters⟩

theorem begins_letter : BeginsCharacters [Ascii.backslash] := by
  have newline : Escaped [0x6e] '\n' := .letter (by decide)
  have characters := Characters.cons (.escape newline) .nil
  rw [List.append_nil] at characters
  exact ⟨[0x6e], _, characters⟩

/-- Where an escape fails, the text up to a place in it begins characters if it begins an escape. -/
theorem beginsCharacters_escape (failed : Escape.decode distance (text ++ rest) = .error fault) :
    BeginsCharacters (Ascii.backslash :: text) ↔ BeginsEscape text := by
  constructor
  · rintro ⟨more, chars, characters⟩
    generalize same : Ascii.backslash :: text ++ more = whole at characters
    cases characters with
    | nil => contradiction
    | @cons _ char _ _ spells following =>
      cases spells with
      | plain isPlain => exact absurd same.symm isPlain.not_backslash
      | @escape escape _ escaped =>
        have same : text ++ more = escape ++ _ := List.tail_eq_of_cons_eq same
        rcases List.append_eq_append_iff.mp same with ⟨left, rfl, _⟩ | ⟨left, rfl, _⟩
        · exact ⟨left, char, escaped⟩
        · -- an escape that is whole would not have failed
          rw [List.append_assoc, Escape.decode_complete escaped] at failed
          contradiction
  · rintro ⟨more, char, escaped⟩
    have characters := Characters.cons (.escape escaped) .nil
    rw [List.append_nil, ← List.cons_append] at characters
    exact ⟨more, [char], characters⟩

/-- The first code unit of an escape is no low surrogate. -/
theorem Escaped.first_unit (escaped : Escaped (Ascii.lowerU :: text) char) :
    ∃ digits unit rest, text = digits ++ rest ∧ CodeUnit digits unit ∧
      ¬(0xdc00 ≤ unit ∧ unit ≤ 0xdfff) := by
  cases escaped with
  | letter known => exact absurd known (by simp [letters, Ascii.lowerU])
  | unit spelled single => exact ⟨_, _, [], (List.append_nil _).symm, spelled, by omega⟩
  | pair spelled least most => exact ⟨_, _, _, rfl, spelled, by omega⟩

theorem EscapeFault.begins_iff (blamed : EscapeFault cause gap rest begun)
    (whole : Ascii.backslash :: bytes = gap ++ rest)
    (failed : Escape.decode distance bytes = .error fault) : BeginsCharacters gap ↔ begun := by
  cases blamed with
  | ended | letter => exact iff_of_true begins_letter trivial
  | cut | digit =>
    rw [List.tail_eq_of_cons_eq whole] at failed
    exact beginsCharacters_escape failed
  | lone => exact iff_of_true ⟨[], [], .nil⟩ trivial
  | unpaired spelled least most => exact iff_of_true (spelled.begins_pair least most) trivial

end TypedJson.Grammar

namespace TypedJson.Escape
open Grammar

variable {bytes lead : List UInt8} {distance start value : Nat}

/-- What is wrong with a code unit: too few bytes are left, or one of the four is no digit. -/
inductive UnitFault (distance : Nat) (bytes : List UInt8) : Fault → Prop where
  | cut : bytes.length < 4 →
      UnitFault distance bytes ⟨.unterminatedString, distance + bytes.length, false⟩
  | digit : bytes = digits ++ byte :: rest → (∀ digit ∈ digits, Hex.isDigit digit = true) →
      digits.length < 4 → Hex.isDigit byte = false →
        UnitFault distance bytes ⟨badDigit byte, distance + digits.length, false⟩

theorem hexValue_fault : Faults (fun fault => ∃ digits byte rest, bytes = digits ++ byte :: rest ∧
      (∀ digit ∈ digits, Hex.isDigit digit = true) ∧ Hex.isDigit byte = false ∧
        fault = ⟨badDigit byte, distance + digits.length, false⟩)
    (hexValue distance value bytes) := by
  induction bytes generalizing distance value with
  | nil => exact .ok value
  | cons byte bytes ih =>
    rw [hexValue]
    split
    case h_1 digit known =>
      refine ih.imp fun fault found => ?_
      obtain ⟨digits, other, rest, rfl, all, isOther, rfl⟩ := found
      have isDigit : Hex.isDigit byte = true := by rw [Hex.isDigit, known]; rfl
      refine ⟨byte :: digits, other, rest, rfl, List.forall_mem_cons.mpr ⟨isDigit, all⟩, isOther,
        ?_⟩
      rw [List.length_cons, Nat.add_assoc, Nat.add_comm 1]
    case h_2 unknown =>
      refine .error ⟨[], byte, bytes, rfl, List.forall_mem_nil _, ?_, rfl⟩
      rw [Hex.isDigit, unknown]
      rfl

theorem codeUnit_fault : Faults (UnitFault distance bytes) (codeUnit distance bytes) := by
  rw [codeUnit]
  split
  case isTrue short => exact .error (.cut short)
  case isFalse =>
    refine hexValue_fault.imp fun fault found => ?_
    obtain ⟨digits, byte, rest, taken, all, isOther, rfl⟩ := found
    have length := congrArg List.length taken
    rw [List.length_take, List.length_append, List.length_cons] at length
    have same : bytes = digits ++ byte :: (rest ++ bytes.drop 4) := by
      calc
        bytes = bytes.take 4 ++ bytes.drop 4 := (List.take_append_drop 4 bytes).symm
        _ = digits ++ byte :: (rest ++ bytes.drop 4) := by
          rw [taken, List.append_assoc, List.cons_append]
    exact .digit same all (by omega) isOther

/-- What is wrong with an escape whose backslash is `start` bytes into the token. -/
def Blames (start : Nat) (bytes : List UInt8) (fault : Fault) : Prop :=
  ∃ gap rest begun, Ascii.backslash :: bytes = gap ++ rest ∧
    fault.distance = start + gap.length ∧ EscapeFault fault.cause gap rest begun

theorem UnitFault.blames {fault : Fault} (isLead : Lead lead)
    (unit : UnitFault (start + 1 + lead.length) bytes fault) :
    Blames start (lead ++ bytes) fault := by
  cases unit with
  | cut short =>
    refine ⟨_, [], _, (List.append_nil _).symm, ?_, .cut isLead short⟩
    simp only [List.length_cons, List.length_append]
    omega
  | @digit digits byte rest same all short isOther =>
    refine ⟨Ascii.backslash :: (lead ++ digits), byte :: rest, _, ?_, ?_,
      .digit isLead all short isOther⟩
    · rw [same, List.cons_append, List.append_assoc]
    · simp only [List.length_cons, List.length_append]
      omega

theorem decodeUnit_blames :
    Faults (Blames start (Ascii.lowerU :: bytes)) (decodeUnit start bytes) := by
  rw [decodeUnit]
  refine Faults.bind (codeUnit_fault.imp fun _ unit => unit.blames .first) fun high first => ?_
  obtain ⟨digits, spelled, whole⟩ := codeUnit_sound first
  have size := spelled.length_eq
  have isLone (surrogate : 0xdc00 ≤ high ∧ high ≤ 0xdfff ∨ 0xd800 ≤ high ∧ high ≤ 0xdbff ∧
      ¬[Ascii.backslash, Ascii.lowerU] <+: bytes.drop 4) :
      Blames start (Ascii.lowerU :: bytes) ⟨.invalidCodeUnit high, start, false⟩ :=
    ⟨[], _, True, by rw [List.nil_append, ← whole], rfl, .lone spelled surrogate⟩
  split
  case isTrue isHigh =>
    simp only [isHighSurrogate, Bool.and_eq_true, decide_eq_true_eq] at isHigh
    obtain ⟨least, most⟩ := isHigh
    split
    case h_1 rest dropped =>
      have dropped : bytes.drop 4 = Ascii.backslash :: Ascii.lowerU :: rest := dropped
      rw [dropped] at whole
      refine Faults.bind (codeUnit_fault.imp fun _ unit => ?_) fun low second => ?_
      · have length : (Ascii.lowerU :: (digits ++ [Ascii.backslash, Ascii.lowerU])).length = 7 := by
          simp [size]
        rw [← Nat.add_assoc start 1 7, ← length] at unit
        have blames := unit.blames (.second spelled least most)
        rwa [List.cons_append, List.append_assoc, List.cons_append, List.singleton_append,
          ← whole] at blames
      · obtain ⟨digits', spelled', whole'⟩ := codeUnit_sound second
        split
        case isTrue => exact .ok _
        case isFalse isOther =>
          simp only [isLowSurrogate, Bool.and_eq_true, decide_eq_true_eq] at isOther
          refine .error ⟨Ascii.backslash :: Ascii.lowerU :: digits,
            Ascii.backslash :: Ascii.lowerU :: (digits' ++ rest.drop 4), True, ?_, ?_,
            .unpaired spelled least most spelled' isOther⟩
          · rw [← whole', whole]
            rfl
          · simp only [List.length_cons, size]
    case h_2 other =>
      refine .error (isLone (.inr ⟨least, most, ?_⟩))
      rintro ⟨rest, dropped⟩
      exact other rest dropped.symm
  case isFalse =>
    split
    case isTrue isLow =>
      simp only [isLowSurrogate, Bool.and_eq_true, decide_eq_true_eq] at isLow
      exact .error (isLone (.inl isLow))
    case isFalse => exact .ok _

theorem decode_blames : Faults (Blames start bytes) (decode start bytes) := by
  cases bytes with
  | nil => exact .error ⟨[Ascii.backslash], [], _, rfl, rfl, .ended⟩
  | cons letter rest =>
    rw [decode]
    split
    case h_1 => exact .ok _
    case h_2 unknown =>
      split
      case isTrue isUnit =>
        rw [beq_iff_eq.mp isUnit]
        exact decodeUnit_blames
      case isFalse other =>
        refine .error ⟨[Ascii.backslash], letter :: rest, _, rfl, rfl,
          .letter (fun known => ?_) (mt beq_iff_eq.mpr other)⟩
        obtain ⟨⟨_, char⟩, member, rfl⟩ := List.mem_map.mp known
        rw [character?_eq_some_iff.mpr member] at unknown
        contradiction

end TypedJson.Escape

namespace TypedJson.StringToken
open Grammar Escape

variable {run rest bytes bad : List UInt8} {delimiter : UInt8} {chars : List Char}
  {distance valid : Nat} {fault : Fault}

/-- Where UTF-8 is malformed, the characters before are whole and the next is none. -/
theorem decode_malformed (failed : Utf8.decode run = .error valid) :
    ∃ chars bad, run = Utf8.encode chars ++ bad ∧ valid = (Utf8.encode chars).length ∧ bad ≠ [] ∧
      ∀ char, ¬String.utf8EncodeChar char <+: bad := by
  fun_induction Utf8.decode run generalizing valid with
  | case1 | case3 => contradiction
  | case2 byte rest none =>
    refine ⟨[], byte :: rest, rfl, (Except.error.inj failed).symm, List.cons_ne_nil _ _, ?_⟩
    rintro char ⟨more, same⟩
    rw [← same, Utf8.first?_append] at none
    contradiction
  | case4 byte rest char found size read ih =>
    obtain ⟨more, same⟩ := Utf8.exists_of_first? found
    have length := String.length_utf8EncodeChar char
    have dropped : rest.drop (char.utf8Size - 1) = more := by
      have positive := char.utf8Size_pos
      have tail := congrArg (List.drop (char.utf8Size - 1 + 1)) same
      rwa [List.drop_succ_cons, List.drop_left' (by omega)] at tail
    obtain ⟨chars, bad, split, rfl, rest⟩ := ih read
    refine ⟨char :: chars, bad, ?_, ?_, rest⟩
    · rw [same, ← dropped, split, Utf8.encode_cons, List.append_assoc]
    · rw [← Except.error.inj failed, Utf8.encode_cons, List.length_append, length]

/-- A delimiter completes no character. -/
theorem not_isPrefix (nonempty : bad ≠ []) (isDelimiter : Ascii.isDelimiter delimiter = true)
    (malformed : ∀ char, ¬String.utf8EncodeChar char <+: bad) (char : Char) :
    ¬String.utf8EncodeChar char <+: bad ++ delimiter :: rest := by
  rintro ⟨left, same⟩
  rcases List.append_eq_append_iff.mp same with ⟨more, rfl, _⟩ | ⟨more, encoded, following⟩
  · exact malformed char (List.prefix_append _ _)
  cases more with
  | nil => exact malformed char ⟨[], by rw [encoded, List.append_nil, List.append_nil]⟩
  | cons first more =>
    obtain rfl := (List.cons.inj following).1
    rcases Utf8.encodeChar_cases char with ⟨_, single⟩ | ⟨_, large⟩
    · have length := congrArg List.length (single.symm.trans encoded)
      have positive := List.length_pos_iff.mpr nonempty
      simp only [List.length_cons, List.length_nil, List.length_append] at length
      omega
    · have above := large delimiter (by rw [encoded]; simp)
      rw [Ascii.isDelimiter, Bool.or_eq_true, beq_iff_eq, beq_iff_eq] at isDelimiter
      rcases isDelimiter with rfl | rfl <;> contradiction

/-- What is wrong with a token whose part from `distance` on is `bytes`: all that stands before the
run or the escape at fault is characters. -/
def Blames (distance : Nat) (bytes : List UInt8) (fault : Fault) : Prop :=
  ∃ front chars gap rest begun, bytes = front ++ (gap ++ rest) ∧ Characters front chars ∧
    fault.distance = distance + front.length + gap.length ∧
      (RunFault fault.cause gap rest begun ∨ EscapeFault fault.cause gap rest begun) ∧
        (BeginsCharacters gap ↔ begun)

theorem blames_run {gap : List UInt8} {begun : Prop}
    (blamed : RunFault fault.cause gap rest begun)
    (stands : fault.distance = distance + gap.length) : Blames distance (gap ++ rest) fault :=
  ⟨[], [], gap, rest, begun, rfl, .nil, stands, .inl blamed, blamed.begins_iff⟩

/-- What is to blame after some characters is to blame with them in front. -/
theorem Blames.after {front : List UInt8} (first : Characters front chars)
    (blames : Blames (distance + front.length) bytes fault) :
    Blames distance (front ++ bytes) fault := by
  obtain ⟨more, chars', gap, rest, begun, rfl, second, stands, blamed, begins⟩ := blames
  refine ⟨front ++ more, chars ++ chars', gap, rest, begun, (List.append_assoc ..).symm,
    first.append second, ?_, blamed, begins⟩
  rw [stands, List.length_append]
  omega

theorem plain_blames (outside : ∀ byte ∈ run, Ascii.isDelimiter byte = false)
    (isDelimiter : Ascii.isDelimiter delimiter = true) :
    Faults (Blames distance (run ++ delimiter :: rest)) (plain distance run) := by
  rw [plain]
  split
  case h_1 index found =>
    obtain ⟨bound, isControl, before⟩ := List.findIdx?_eq_some_iff_getElem.mp found
    have sound : ∀ byte ∈ run.take index,
        Ascii.isDelimiter byte = false ∧ Ascii.isControl byte = false := by
      intro byte member
      obtain ⟨place, low, rfl⟩ := List.mem_take_iff_getElem.mp member
      exact ⟨outside _ (List.getElem_mem _), Bool.eq_false_iff.mpr (before place (by omega))⟩
    have split : run ++ delimiter :: rest =
        run.take index ++ run[index] :: (run.drop (index + 1) ++ delimiter :: rest) := by
      rw [← List.cons_append, ← List.drop_eq_getElem_cons bound, ← List.append_assoc,
        List.take_append_drop]
    rw [split, List.getD_eq_getElem?_getD, List.getElem?_eq_getElem bound, Option.getD_some]
    exact .error (blames_run (.control sound isControl) (by simp [Nat.le_of_lt bound]))
  case h_2 sound =>
    split
    case h_1 => exact .ok _
    case h_2 valid malformed =>
      obtain ⟨chars, bad, rfl, rfl, nonempty, none⟩ := decode_malformed malformed
      have plains : ∀ char ∈ chars, IsPlain char := by
        refine fun char member => isPlain_iff.mpr fun byte inChar => ?_
        have inRun : byte ∈ Utf8.encode chars ++ bad :=
          List.mem_append_left _ (List.mem_flatMap.mpr ⟨char, member, inChar⟩)
        exact ⟨outside byte inRun, List.findIdx?_eq_none_iff.mp sound byte inRun⟩
      rw [List.append_assoc]
      exact .error (blames_run (.malformed plains (not_isPrefix nonempty isDelimiter none)) rfl)

theorem escape_blames : Faults (Blames distance (Ascii.backslash :: bytes))
    (Escape.decode distance bytes) := by
  intro fault failed
  obtain ⟨gap, rest, begun, whole, stands, blamed⟩ := decode_blames failed
  exact ⟨[], [], gap, rest, begun, whole, .nil, stands, .inr blamed, blamed.begins_iff whole failed⟩

theorem body_blames : Faults (Blames distance bytes) (body distance bytes) := by
  induction length : bytes.length using Nat.strongRecOn generalizing bytes distance with
  | _ count ih =>
  rcases exists_run bytes with outside | ⟨run, delimiter, rest, outside, isDelimiter, rfl⟩
  · rw [body_outside outside]
    refine .error ?_
    have blames : Blames distance (bytes ++ [])
        ⟨.unterminatedString, distance + bytes.length, true⟩ :=
      blames_run (.unterminated outside) rfl
    rwa [List.append_nil] at blames
  rw [body_append outside isDelimiter]
  refine Faults.bind (plain_blames outside isDelimiter) fun before plainRead => ?_
  obtain ⟨rfl, plains⟩ := plain_sound outside plainRead
  have spelled := Characters.plain plains
  split
  case isTrue => exact .ok _
  case isFalse notQuote =>
    have isBackslash : delimiter = Ascii.backslash := by
      simpa [Ascii.isDelimiter, notQuote] using isDelimiter
    subst isBackslash
    refine (escape_blames.imp fun _ blames => blames.after spelled).bind ?_
    rintro ⟨char, size⟩ escaped
    obtain ⟨escape, isEscape, rfl, left, rfl⟩ := Escape.decode_sound escaped
    have shorter : left.length < count := by
      simp only [List.length_append, List.length_cons] at length
      omega
    dsimp only
    rw [Nat.add_sub_cancel, List.drop_left]
    have one := Characters.cons (.escape isEscape) .nil
    rw [List.append_nil] at one
    exact ((ih _ shorter rfl).imp fun _ blames => (Blames.after one blames).after spelled).bind
      fun _ _ => .ok _

/-- A string token that cannot be read is sound up to a run of text or an escape, and has a
violation there. The text up to the violation begins a string token just where that part of the run
or of the escape allows it. -/
theorem scan_blames (failed : scan (Ascii.quote :: bytes) = .error fault) :
    ∃ front chars gap rest begun, bytes = front ++ (gap ++ rest) ∧ Characters front chars ∧
      fault.distance = 1 + front.length + gap.length ∧
        (RunFault fault.cause gap rest begun ∨ EscapeFault fault.cause gap rest begun) ∧
          (BeginsToken (Ascii.quote :: (front ++ gap)) ↔ begun) := by
  have found : Faults (Blames 1 bytes) (scan (Ascii.quote :: bytes)) :=
    Faults.bind body_blames fun _ _ => .ok _
  obtain ⟨front, chars, gap, rest, begun, rfl, first, stands, blamed, begins⟩ := found failed
  rw [← List.append_assoc] at failed
  refine ⟨front, chars, gap, rest, begun, rfl, first, stands, blamed, ?_⟩
  rw [beginsToken_iff failed, BeginsCharacters.append_iff first, begins]

end TypedJson.StringToken
