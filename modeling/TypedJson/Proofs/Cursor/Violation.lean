import TypedJson.Proofs.Cursor.Scratch
import TypedJson.Proofs.Grammar.Violation

/-! Where a string is reported to be wrong, in the document that it is read from. -/
namespace TypedJson.Cursor
open Grammar

variable {document : List UInt8} {before : Cursor} {scratch : String} {failure : Failure}
  {after : Buffered}

theorem Agrees.failure_eq {cursor : Cursor} {error : Error} {last : Reader}
    (agrees : Agrees document (.error failure cursor) (.error error last)) :
    failure = .error error := by
  cases agrees
  rfl

/-- A token that is not decoded is one that cannot be scanned, and the fault of the scan is reported
at its place in the document. -/
theorem scan_of_decodeString (quote : document[before.position]? = some Ascii.quote)
    (failed : (decodeString document).run ⟨before, scratch⟩ = .error failure after) :
    ∃ fault, StringToken.scan (document.drop before.position) = .error fault ∧
      failure = .error ⟨fault.cause, none, before.position + fault.distance⟩ := by
  have agrees := @seen_agrees _ _ scratch quote
  rw [failed, Reader.stringToken, Reader.run_bind_of_ok Reader.run_get, unread_reader] at agrees
  cases scanned : StringToken.scan (document.drop before.position) with
  | ok found =>
    rw [scanned] at agrees
    change Agrees document (.error failure after.cursor) (.ok found.1 _) at agrees
    cases agrees
  | error fault =>
    obtain ⟨cause, distance, stops⟩ := fault
    rw [scanned] at agrees
    refine ⟨_, rfl, ?_⟩
    cases stops with
    | true =>
      exact @Agrees.failure_eq _ _ _ _ ((before.reader document).advance distance) agrees
    | false => exact @Agrees.failure_eq _ _ _ _ (before.reader document) agrees

/-- Where a string is not decoded, all of it is sound up to the run of text or the escape at fault.
The bytes up to the reported offset begin a string token if the fault is malformed UTF-8, a letter
of no escape or a surrogate by itself. They do so up to a control character if the run up to it
begins a text in UTF-8, for control characters are looked for first; up to the end of the document,
where no quote ends the last run, if that run also holds no control character; and up to a digit
that is none, or the end of the document, if the digits before it begin a unit that may stand
there. -/
theorem decodeString_blames (quote : document[before.position]? = some Ascii.quote)
    (failed : (decodeString document).run ⟨before, scratch⟩ = .error failure after) :
    ∃ cause offset, failure = .error ⟨.malformed cause, none, offset⟩ ∧
      ∃ front chars gap rest begun,
        document.extract before.position offset = Ascii.quote :: (front ++ gap) ∧
          document.drop offset = rest ∧ Characters front chars ∧
            (RunFault cause gap rest begun ∨ EscapeFault cause gap rest begun) ∧
              (BeginsToken (document.extract before.position offset) ↔ begun) := by
  obtain ⟨fault, scanned, rfl⟩ := scan_of_decodeString quote failed
  obtain ⟨bytes, unread⟩ : ∃ bytes, document.drop before.position = Ascii.quote :: bytes := by
    obtain ⟨inside, head⟩ := List.getElem?_eq_some_iff.mp quote
    exact ⟨_, by rw [List.drop_eq_getElem_cons inside, head]⟩
  rw [unread] at scanned
  obtain ⟨front, chars, gap, rest, begun, rfl, first, stands, blamed, begins⟩ :=
    StringToken.scan_blames scanned
  have size : fault.distance = (Ascii.quote :: (front ++ gap)).length := by
    rw [stands, List.length_cons, List.length_append]
    omega
  have split : document.drop before.position = Ascii.quote :: (front ++ gap) ++ rest := by
    rw [unread, List.cons_append, List.append_assoc]
  have read : document.extract before.position (before.position + fault.distance) =
      Ascii.quote :: (front ++ gap) := by
    rw [List.extract_eq_take_drop, Nat.add_sub_cancel_left, split, size, List.take_left]
  have left : document.drop (before.position + fault.distance) = rest := by
    rw [← List.drop_drop, split, size, List.drop_left]
  refine ⟨fault.cause, _, rfl, front, chars, gap, rest, begun, read, left, first, blamed, ?_⟩
  rw [read, begins]

/-- Malformed UTF-8 is a fault of a run. -/
theorem not_escapeFault {gap rest : List UInt8} {begun : Prop} :
    ¬EscapeFault .invalidUtf8 gap rest begun := by
  generalize same : SyntaxError.invalidUtf8 = cause
  intro blamed
  cases blamed with
  | letter =>
    rw [badLetter] at same
    split at same <;> contradiction
  | digit =>
    rw [badDigit] at same
    split at same <;> contradiction
  | _ => contradiction

/-- In `"a\xff"` the malformed byte is to blame, and a token may begin with what is before it. -/
theorem decodeString_blames_utf8 : BeginsToken ([0x22, 0x61, 0xff, 0x22].extract 0 2) := by
  have failed : (decodeString [0x22, 0x61, 0xff, 0x22]).run ⟨⟨0, 0⟩, ""⟩ =
      .error (.error ⟨SyntaxError.invalidUtf8, none, 2⟩) ⟨⟨0, 0⟩, ""⟩ := by with_unfolding_all rfl
  obtain ⟨cause, offset, same, front, chars, gap, rest, begun, _, _, _, blamed, begins⟩ :=
    @decodeString_blames _ ⟨0, 0⟩ "" _ _ rfl failed
  obtain ⟨⟨same⟩, ⟨⟩⟩ := same
  apply begins.mpr
  cases blamed.resolve_right not_escapeFault with
  | malformed => trivial

/-- Where decoding a token at the start of a document fails, what stands before the offset begins a
token if it begins characters. -/
theorem beginsToken_start {text rest : List UInt8} {depth : Nat}
    (failed : (decodeString (Ascii.quote :: (text ++ rest))).run ⟨⟨0, depth⟩, scratch⟩ =
      .error failure after) : BeginsToken (Ascii.quote :: text) ↔ BeginsCharacters text := by
  obtain ⟨fault, scanned, _⟩ := scan_of_decodeString rfl failed
  exact beginsToken_iff scanned

theorem digit?_lt {byte : UInt8} {value : Nat} (known : Hex.digit? byte = some value) :
    value < 256 := by
  have bound := byte.toNat_lt
  rw [Hex.digit?] at known
  repeat' split at known
  case isFalse.isFalse.isFalse => contradiction
  all_goals
    rw [← Option.some.inj known]
    omega

/-- Violations before the reported ones: a control character in a run that no quote ends, malformed
UTF-8 before a control character, letters in a code unit that is cut off, and the digits of a low
surrogate before a letter. -/
theorem decodeString_blames_later :
    ((decodeString [0x22, 0x01]).run ⟨⟨0, 0⟩, ""⟩ =
        .error (.error ⟨SyntaxError.unterminatedString, none, 2⟩) ⟨⟨2, 0⟩, ""⟩ ∧
      ¬BeginsToken ([0x22, 0x01].extract 0 2)) ∧
    ((decodeString [0x22, 0xff, 0x01, 0x22]).run ⟨⟨0, 0⟩, ""⟩ =
        .error (.error ⟨SyntaxError.controlCharacter 0x01, none, 2⟩) ⟨⟨2, 0⟩, ""⟩ ∧
      ¬BeginsToken ([0x22, 0xff, 0x01, 0x22].extract 0 2)) ∧
    ((decodeString [0x22, 0x5c, 0x75, 0x5a, 0x5a, 0x22]).run ⟨⟨0, 0⟩, ""⟩ =
        .error (.error ⟨SyntaxError.unterminatedString, none, 6⟩) ⟨⟨0, 0⟩, ""⟩ ∧
      ¬BeginsToken ([0x22, 0x5c, 0x75, 0x5a, 0x5a, 0x22].extract 0 6)) ∧
    (decodeString [0x22, 0x5c, 0x75, 0x64, 0x63, 0x30, 0x5a, 0x22]).run ⟨⟨0, 0⟩, ""⟩ =
        .error (.error ⟨SyntaxError.invalidHexDigit 'Z', none, 6⟩) ⟨⟨0, 0⟩, ""⟩ ∧
      ¬BeginsToken ([0x22, 0x5c, 0x75, 0x64, 0x63, 0x30, 0x5a, 0x22].extract 0 6) := by
  have control : (decodeString [0x22, 0x01]).run ⟨⟨0, 0⟩, ""⟩ =
      .error (.error ⟨SyntaxError.unterminatedString, none, 2⟩) ⟨⟨2, 0⟩, ""⟩ := rfl
  have malformed : (decodeString [0x22, 0xff, 0x01, 0x22]).run ⟨⟨0, 0⟩, ""⟩ =
      .error (.error ⟨SyntaxError.controlCharacter 0x01, none, 2⟩) ⟨⟨2, 0⟩, ""⟩ := rfl
  have cut : (decodeString [0x22, 0x5c, 0x75, 0x5a, 0x5a, 0x22]).run ⟨⟨0, 0⟩, ""⟩ =
      .error (.error ⟨SyntaxError.unterminatedString, none, 6⟩) ⟨⟨0, 0⟩, ""⟩ := by
    with_unfolding_all rfl
  have digit : (decodeString [0x22, 0x5c, 0x75, 0x64, 0x63, 0x30, 0x5a, 0x22]).run ⟨⟨0, 0⟩, ""⟩ =
      .error (.error ⟨SyntaxError.invalidHexDigit 'Z', none, 6⟩) ⟨⟨0, 0⟩, ""⟩ := by
    with_unfolding_all rfl
  have begins_run {byte : UInt8} (outside : Ascii.isDelimiter byte = false)
      (begins : BeginsCharacters [byte]) : Ascii.isControl byte = false ∧ BeginsText [byte] := by
    obtain ⟨sound, begins⟩ :=
      (beginsCharacters_run (List.forall_mem_singleton.mpr outside)).mp begins
    exact ⟨sound byte (List.mem_singleton_self byte), begins⟩
  refine ⟨⟨control, fun begins => ?_⟩, ⟨malformed, fun begins => ?_⟩, ⟨cut, fun begins => ?_⟩,
    digit, fun begins => ?_⟩
  · have begins := (@beginsToken_start _ _ _ [0x01] [] _ control).mp begins
    exact absurd (begins_run rfl begins).1 (by decide)
  · have begins := (@beginsToken_start _ _ _ [0xff] [0x01, 0x22] _ malformed).mp begins
    obtain ⟨_, more, chars, same⟩ := begins_run rfl begins
    have inText : 0xff ∈ Utf8.encode chars := same ▸ List.mem_cons_self
    obtain ⟨char, _, inChar⟩ := List.mem_flatMap.mp inText
    exact absurd (Utf8.encodeChar_lt char 0xff inChar) (by decide)
  · have begins := (@beginsToken_start _ _ _ [0x5c, 0x75, 0x5a, 0x5a, 0x22] [] _ cut).mp begins
    have failed : Escape.decode 1 ([0x75, 0x5a, 0x5a, 0x22] ++ []) =
      .error ⟨.unterminatedString, 6, false⟩ := rfl
    obtain ⟨more, char, escaped⟩ := (beginsCharacters_escape failed).mp begins
    obtain ⟨digits, unit, rest, same, spelled, _⟩ := escaped.first_unit
    cases spelled with
    | mk first =>
      rw [← (List.cons.inj same).1] at first
      contradiction
  · have begins := (@beginsToken_start _ _ _ [0x5c, 0x75, 0x64, 0x63, 0x30] [0x5a, 0x22] _ digit).mp
      begins
    have failed : Escape.decode 1 ([0x75, 0x64, 0x63, 0x30] ++ [0x5a, 0x22]) =
      .error ⟨.invalidHexDigit 'Z', 6, false⟩ := rfl
    obtain ⟨more, char, escaped⟩ := (beginsCharacters_escape failed).mp begins
    obtain ⟨digits, unit, rest, same, spelled, other⟩ := escaped.first_unit
    cases spelled with
    | @mk _ w _ x _ y _ z first second third fourth =>
      simp only [List.cons_append, List.nil_append] at same
      obtain ⟨rfl, rfl, rfl, _⟩ := same
      obtain rfl : 13 = w := Option.some.inj first
      obtain rfl : 12 = x := Option.some.inj second
      obtain rfl : 0 = y := Option.some.inj third
      have small := digit?_lt fourth
      omega

end TypedJson.Cursor
