import TypedJson.Proofs.Reader.Step

/-! Values that are single tokens. Each kind of value has a language: for every value, the tokens
that are read as it. Reading is sound and complete for it at every depth, so what a kind of value
accepts is settled by its language alone. -/
namespace TypedJson.Reader
open Grammar

variable {α : Type} {before after : Reader} {text rest : List UInt8} {byte : UInt8}
  {expected : SchemaError} {accept : UInt8 → Bool} {depth : Nat}

theorem literal_iff {word : String} : (literal word).run before = .ok () after ↔
    Passes before (Utf8.encode word.toList) after := by
  rw [literal, EStateM.run_bind, EStateM.run_get]
  simp only
  split
  case isTrue found =>
    obtain ⟨rest, same⟩ := List.isPrefixOf_iff_prefix.mp found
    have passes := Passes.advance same.symm
    constructor
    · intro read
      obtain ⟨_, rfl⟩ := EStateM.Result.ok.inj read
      exact passes
    · intro passes
      rw [passes.eq_advance]
      rfl
  case isFalse missing =>
    constructor
    · intro read
      contradiction
    · intro passes
      exact absurd (List.isPrefixOf_iff_prefix.mpr ⟨after.unread, passes.unread.symm⟩) missing

theorem numeral_sound {number : Numeral} (read : numeral.run before = .ok number after) :
    Number number.text ∧ number.integral = isIntegral number.text ∧
      Passes before number.text after ∧ EndsNumber number.text after.unread := by
  rw [numeral, EStateM.run_bind, EStateM.run_get] at read
  simp only at read
  split at read
  case h_2 => contradiction
  case h_1 found scanned =>
    obtain ⟨rfl, rfl⟩ := EStateM.Result.ok.inj read
    obtain ⟨valid, integral, rest, same, ends⟩ := scan_sound scanned
    have passes := Passes.advance same
    have left := List.append_cancel_left (passes.unread.symm.trans same)
    exact ⟨valid, integral, passes, left ▸ ends⟩

theorem numeral_complete (number : Number text) (passes : Passes before text after)
    (ends : EndsNumber text after.unread) :
    numeral.run before = .ok ⟨text, isIntegral text⟩ after := by
  rw [numeral, EStateM.run_bind, EStateM.run_get]
  simp only [passes.unread, scan_complete number ends]
  exact congrArg (EStateM.Result.ok _) passes.eq_advance.symm

theorem stringToken_sound {value : String} (quote : before.unread.head? = some Ascii.quote)
    (read : stringToken.run before = .ok value after) :
    ∃ text, Grammar.StringToken text value ∧ Passes before text after := by
  rw [stringToken, EStateM.run_bind, EStateM.run_get] at read
  simp only at read
  split at read
  case h_2 => split at read <;> contradiction
  case h_1 found size scanned =>
    obtain ⟨rfl, rfl⟩ := EStateM.Result.ok.inj read
    obtain ⟨bytes, same⟩ : ∃ bytes, before.unread = Ascii.quote :: bytes := by
      cases unread : before.unread with
      | nil => rw [unread] at quote; contradiction
      | cons first bytes =>
        rw [unread] at quote
        exact ⟨bytes, congrArg (· :: bytes) (Option.some.inj quote)⟩
    rw [same] at scanned
    obtain ⟨text, rest, token, rfl, split⟩ := StringToken.scan_sound scanned
    exact ⟨text, token, Passes.advance (same.trans split)⟩

theorem stringToken_complete {value : String} (token : Grammar.StringToken text value)
    (passes : Passes before text after) : stringToken.run before = .ok value after := by
  rw [stringToken, EStateM.run_bind, EStateM.run_get]
  simp only [passes.unread, StringToken.scan_complete token]
  exact congrArg (EStateM.Result.ok _) passes.eq_advance.symm

/-! One value of each kind: whitespace, a token that begins as its kind does, and a check. -/

/-- A step that goes on with a token of its kind is sound if it is so from the token on. -/
theorem token_sound {k : UInt8 → Read α} {language : α → List UInt8 → Prop}
    (sound : ∀ ⦃byte before value after⦄, before.unread.head? = some byte → accept byte = true →
      (k byte).run before = .ok value after →
        ∃ text, language value text ∧ Passes before text after ∧ Ends text after.unread) :
    Sound (expect accept expected >>= k) depth language := by
  intro before value after _ read
  obtain ⟨byte, middle, expected, read⟩ := run_bind_ok read
  obtain ⟨space, isSpace, passes, head, accepted⟩ := expect_sound expected
  obtain ⟨text, valid, token, ends⟩ := sound head accepted read
  exact ⟨space, text, isSpace, valid, passes.trans token, ends⟩

theorem token_complete {k : UInt8 → Read α} {language : α → List UInt8 → Prop}
    (begins : ∀ ⦃value text⦄, language value text → ∃ byte, text.head? = some byte ∧
      accept byte = true ∧ Ascii.isWhitespace byte = false)
    (complete : ∀ ⦃byte before value text after⦄, text.head? = some byte → language value text →
      Passes before text after → Ends text after.unread → (k byte).run before = .ok value after) :
    Complete (expect accept expected >>= k) depth language := by
  rintro before value after _ ⟨space, text, isSpace, valid, passes, ends⟩
  obtain ⟨middle, first, second⟩ := passes.split
  obtain ⟨byte, head, accepted, token⟩ := begins valid
  have unread : middle.unread.head? = some byte := by
    rw [second.unread, List.head?_append, head, Option.some_or]
  rw [run_bind_of_ok (expect_complete isSpace first unread token accepted)]
  exact complete head valid second ends

/-- Tokens other than numbers end where they end. -/
theorem ends_of_head (byte : UInt8) (head : text.head? = some byte)
    (other : Ascii.startsNumber byte = false) :
    Ends text rest := by
  intro number
  obtain ⟨first, same, starts⟩ := number_starts number
  rw [head] at same
  cases same
  rw [other] at starts
  contradiction

def booleanText (value : Bool) : List UInt8 :=
  Utf8.encode (if value then "true" else "false").toList

theorem boolean_sound : Sound boolean depth fun value text => text = booleanText value := by
  apply token_sound
  intro byte before value after head accepted read
  split at read
  case isTrue isTrue =>
    obtain ⟨_, middle, word, read⟩ := run_bind_ok read
    obtain ⟨rfl, rfl⟩ := EStateM.Result.ok.inj read
    exact ⟨_, rfl, literal_iff.mp word, ends_of_head Ascii.lowerT rfl rfl⟩
  case isFalse =>
    obtain ⟨_, middle, word, read⟩ := run_bind_ok read
    obtain ⟨rfl, rfl⟩ := EStateM.Result.ok.inj read
    exact ⟨_, rfl, literal_iff.mp word, ends_of_head Ascii.lowerF rfl rfl⟩

theorem boolean_complete : Complete boolean depth fun value text => text = booleanText value := by
  refine token_complete ?_ fun byte before value text after head valid passes _ => ?_
  · rintro value _ rfl
    cases value
    · exact ⟨Ascii.lowerF, rfl, rfl, rfl⟩
    · exact ⟨Ascii.lowerT, rfl, rfl, rfl⟩
  · subst valid
    cases value
    · cases Option.some.inj head
      have word : (literal "false").run before = .ok () after := literal_iff.mpr passes
      change (literal "false" >>= fun _ => pure false).run before = _
      rw [run_bind_of_ok word]
      rfl
    · cases Option.some.inj head
      have word : (literal "true").run before = .ok () after := literal_iff.mpr passes
      change (literal "true" >>= fun _ => pure true).run before = _
      rw [run_bind_of_ok word]
      rfl

theorem startsValue_token (starts : Ascii.startsValue byte = true) :
    Ascii.isWhitespace byte = false := by
  cases space : Ascii.isWhitespace byte with
  | false => rfl
  | true =>
    simp only [Ascii.isWhitespace, Bool.or_eq_true, beq_iff_eq] at space
    rcases space with ((rfl | rfl) | rfl) | rfl <;> contradiction

theorem run_get : (get : Read Reader).run before = .ok before before := rfl

/-- A number is a token that begins as numbers do. -/
theorem number_begins (number : Number text) : ∃ byte, text.head? = some byte ∧
    Ascii.startsNumber byte = true ∧ Ascii.isWhitespace byte = false := by
  obtain ⟨byte, head, starts⟩ := number_starts number
  exact ⟨byte, head, starts, startsValue_token (by simp [Ascii.startsValue, starts])⟩

/-- The numbers written without fraction and exponent whose value is that of the integer. -/
def IntegerText {type : IntegerType} (value : BoundedInt type) (text : List UInt8) : Prop :=
  Number text ∧ isIntegral text = true ∧ Numeral.toInt ⟨text, true⟩ = value.value

theorem integer_sound (type : IntegerType) : Sound (integer type) depth IntegerText := by
  apply token_sound
  intro byte before value after head accepted read
  obtain ⟨start, middle, same, read⟩ := run_bind_ok read
  obtain ⟨rfl, rfl⟩ := EStateM.Result.ok.inj same
  obtain ⟨⟨text, integral⟩, middle, token, read⟩ := run_bind_ok read
  obtain ⟨valid, same, passes, ends⟩ := numeral_sound token
  simp only at read
  split at read
  case isFalse => contradiction
  case isTrue whole =>
    split at read
    case isFalse => contradiction
    case isTrue =>
      split at read
      case isFalse => contradiction
      case isTrue =>
        obtain ⟨rfl, rfl⟩ := EStateM.Result.ok.inj read
        subst whole
        exact ⟨text, ⟨valid, same.symm, rfl⟩, passes, fun _ => ends⟩

theorem integer_complete (type : IntegerType) : Complete (integer type) depth IntegerText := by
  refine token_complete (fun value text valid => number_begins valid.1) ?_
  rintro byte before value text after head ⟨number, integral, same⟩ passes ends
  rw [run_bind_of_ok run_get, run_bind_of_ok (numeral_complete number passes (ends number))]
  simp only [integral, if_true, same, dif_pos value.lowest_le, dif_pos value.le_highest]
  rfl

/-- The numbers that round to a finite value. -/
def RealText (value : Binary64) (text : List UInt8) : Prop :=
  Number text ∧ Numeral.toBinary64 ⟨text, isIntegral text⟩ = value ∧ value.isFinite = true

theorem real_sound : Sound real depth RealText := by
  apply token_sound
  intro byte before value after head accepted read
  obtain ⟨start, middle, same, read⟩ := run_bind_ok read
  obtain ⟨rfl, rfl⟩ := EStateM.Result.ok.inj same
  obtain ⟨⟨text, integral⟩, middle, token, read⟩ := run_bind_ok read
  obtain ⟨valid, same, passes, ends⟩ := numeral_sound token
  simp only at read same
  split at read
  case isFalse => contradiction
  case isTrue finite =>
    obtain ⟨rfl, rfl⟩ := EStateM.Result.ok.inj read
    subst same
    exact ⟨text, ⟨valid, rfl, finite⟩, passes, fun _ => ends⟩

theorem real_complete : Complete real depth RealText := by
  refine token_complete (fun value text valid => number_begins valid.1) ?_
  rintro byte before value text after head ⟨number, same, finite⟩ passes ends
  rw [run_bind_of_ok run_get, run_bind_of_ok (numeral_complete number passes (ends number))]
  simp only [same, finite, if_true]
  rfl

/-! Values spelled by a string token. -/

/-- A string token that is then looked at is sound for the texts it stands for. -/
private theorem spelled_sound {k : String → Reader → Read α} {meaning : α → String → Prop}
    (sound : ∀ ⦃text start before value after⦄, (k text start).run before = .ok value after →
      meaning value text ∧ after = before) :
    Sound (expect (· == Ascii.quote) expected >>= fun _ => get >>= fun start =>
      stringToken >>= fun text => k text start) depth
      fun value text => ∃ spelled, Grammar.StringToken text spelled ∧ meaning value spelled := by
  apply token_sound
  intro byte before value after head accepted read
  obtain ⟨start, middle, same, read⟩ := run_bind_ok read
  obtain ⟨rfl, rfl⟩ := EStateM.Result.ok.inj same
  obtain ⟨spelled, middle, token, read⟩ := run_bind_ok read
  rw [beq_iff_eq.mp accepted] at head
  obtain ⟨text, valid, passes⟩ := stringToken_sound head token
  obtain ⟨means, rfl⟩ := sound read
  exact ⟨text, ⟨spelled, valid, means⟩, passes, ends_of_head _ (valid.head?) rfl⟩

private theorem spelled_complete {k : String → Reader → Read α} {meaning : α → String → Prop}
    (complete : ∀ ⦃text start before value⦄, meaning value text →
      (k text start).run before = .ok value before) :
    Complete (expect (· == Ascii.quote) expected >>= fun _ => get >>= fun start =>
      stringToken >>= fun text => k text start) depth
      fun value text => ∃ spelled, Grammar.StringToken text spelled ∧ meaning value spelled := by
  refine token_complete ?_ ?_
  · rintro value text ⟨spelled, token, _⟩
    exact ⟨Ascii.quote, token.head?, rfl, rfl⟩
  · rintro byte before value text after head ⟨spelled, token, means⟩ passes ends
    rw [run_bind_of_ok run_get, run_bind_of_ok (stringToken_complete token passes)]
    exact complete means

theorem string_sound : Sound string depth fun value text => Grammar.StringToken text value := by
  apply token_sound
  intro byte before value after head accepted read
  rw [beq_iff_eq.mp accepted] at head
  obtain ⟨text, valid, passes⟩ := stringToken_sound head read
  exact ⟨text, valid, passes, ends_of_head _ (valid.head?) rfl⟩

theorem string_complete :
    Complete string depth fun value text => Grammar.StringToken text value := by
  refine token_complete (fun value text token => ⟨_, token.head?, rfl, rfl⟩) ?_
  exact fun byte before value text after _ token passes _ => stringToken_complete token passes

/-- The strings that spell the bytes in hexadecimal. -/
def BinaryText {width : Nat} (value : Vector UInt8 width) (text : List UInt8) : Prop :=
  ∃ spelled, Grammar.StringToken text spelled ∧
    Hex.decode width (Utf8.encode spelled.toList) = .ok value

theorem binary_sound (width : Nat) : Sound (binary width) depth BinaryText := by
  apply spelled_sound
  intro spelled start before value after read
  split at read
  case h_1 decoded =>
    obtain ⟨rfl, rfl⟩ := EStateM.Result.ok.inj read
    exact ⟨decoded, rfl⟩
  case h_2 => contradiction

theorem binary_complete (width : Nat) : Complete (binary width) depth BinaryText := by
  apply spelled_complete
  intro spelled start before value decoded
  simp only [decoded]
  rfl

/-- The strings that are, of the names, first that of the index. -/
def NameText (names : List String) (index : Nat) (text : List UInt8) : Prop :=
  ∃ spelled, Grammar.StringToken text spelled ∧ names.idxOf? spelled = some index

theorem enumeration_sound (names : List String) :
    Sound (enumeration names) depth (NameText names) := by
  apply spelled_sound
  intro spelled start before value after read
  split at read
  case h_1 found =>
    obtain ⟨rfl, rfl⟩ := EStateM.Result.ok.inj read
    exact ⟨found, rfl⟩
  case h_2 => contradiction

theorem enumeration_complete (names : List String) :
    Complete (enumeration names) depth (NameText names) := by
  apply spelled_complete
  intro spelled start before value found
  simp only [found]
  rfl

end TypedJson.Reader
