import Mathlib.Algebra.Ring.Parity
import Mathlib.Data.List.DropRight
import TypedJson.Proofs.Cursor.Guarded
import TypedJson.Proofs.Grammar.Quoted

/-! String tokens as a writer puts them out. It goes through the bytes of a text and copies them in
segments, one up to each byte that needs an escape and one at the end. What comes out is the form of
each character in turn: the bytes that are still to be copied are all their own forms. -/
namespace TypedJson.Escape

variable {char : Char} {text front : List Char} {before done rest : List UInt8}

/-! Copying segments -/

/-- What takes the place of a byte that is not copied; of a control character without a letter, what
its digits follow. -/
def substitute? (byte : UInt8) : Option (List UInt8) :=
  match letter? byte with
  | some letter => some [Ascii.backslash, letter]
  | none => if Ascii.isControl byte then some unit else none
where
  unit : List UInt8 := [Ascii.backslash, Ascii.lowerU, Ascii.zero, Ascii.zero]

/-- A part of some bytes, which has to be in bounds. -/
def segment (bytes : List UInt8) (first last : Nat) : Except Breach (List UInt8) :=
  if first ≤ last ∧ last ≤ bytes.length then .ok (bytes.extract first last) else .error .slice

/-- What was put out, and where the bytes that are still to be copied begin. -/
structure Copying where
  output : List UInt8
  start : Nat

/-- Goes on to the byte at a place. -/
def Copying.next (bytes : List UInt8) (state : Copying) : UInt8 × Nat → Except Breach Copying
  | (byte, place) =>
    match substitute? byte with
    | none => return state
    | some substitute => do
      let output := state.output ++ (← segment bytes state.start place) ++ substitute
      if substitute = substitute?.unit then return ⟨output ++ Hex.encode [byte], place + 1⟩
      else return ⟨output, place + 1⟩

/-- Puts out a string token after what was put out before it. -/
def copy (output : List UInt8) (text : List Char) : Except Breach (List UInt8) := do
  let bytes := Utf8.encode text
  let last ← bytes.zipIdx.foldlM (Copying.next bytes) ⟨output ++ [Ascii.quote], 0⟩
  return last.output ++ (← segment bytes last.start bytes.length) ++ [Ascii.quote]

/-- With the bytes left to be copied, what was put out is what the bytes up to a place stand for. -/
structure Copying.Holds (before done : List UInt8) (state : Copying) : Prop where
  start_le : state.start ≤ done.length
  output_eq : state.output ++ done.drop state.start = before ++ done.flatMap encodeByte

variable {state : Copying}

theorem encodeByte_eq (byte : UInt8) : encodeByte byte =
    match substitute? byte with
    | none => [byte]
    | some substitute =>
      if substitute = substitute?.unit then substitute ++ Hex.encode [byte] else substitute := by
  cases letter : letter? byte with
  | some letter => simp [encodeByte, substitute?, substitute?.unit, letter]
  | none =>
    cases control : Ascii.isControl byte with
    | true => simp [encodeByte, substitute?, substitute?.unit, letter, control, Hex.encode]
    | false => simp [encodeByte, substitute?, letter, control]

theorem segment_append (ordered : state.start ≤ done.length) (rest : List UInt8) :
    segment (done ++ rest) state.start done.length = .ok (done.drop state.start) := by
  have bounds : state.start ≤ done.length ∧ done.length ≤ (done ++ rest).length :=
    ⟨ordered, by rw [List.length_append]; exact Nat.le_add_right ..⟩
  rw [segment, if_pos bounds, List.extract_eq_take_drop, List.drop_append_of_le_length ordered,
    List.take_left' List.length_drop]

theorem Copying.Holds.next (holds : state.Holds before done) (byte : UInt8) (rest : List UInt8) :
    ∃ following, state.next (done ++ byte :: rest) (byte, done.length) = .ok following ∧
      following.Holds before (done ++ [byte]) := by
  have encoded := encodeByte_eq byte
  rw [Copying.next]
  cases substituted : substitute? byte with
  | none =>
    rw [substituted] at encoded
    refine ⟨state, rfl, ?_, ?_⟩
    · rw [List.length_append]
      exact Nat.le_add_right_of_le holds.start_le
    · rw [List.drop_append_of_le_length holds.start_le, ← List.append_assoc, holds.output_eq,
        List.flatMap_append, List.flatMap_singleton, encoded, List.append_assoc]
  | some substitute =>
    rw [substituted] at encoded
    have copied : state.output ++ done.drop state.start ++ encodeByte byte =
        before ++ (done ++ [byte]).flatMap encodeByte := by
      rw [holds.output_eq, List.flatMap_append, List.flatMap_singleton, List.append_assoc]
    -- nothing is left to be copied after an escape
    have caught (output : List UInt8) (same : output = before ++ (done ++ [byte]).flatMap encodeByte) :
        Copying.Holds before (done ++ [byte]) ⟨output, done.length + 1⟩ := by
      refine ⟨?_, ?_⟩
      · simp
      · simp [same]
    simp only [segment_append holds.start_le (byte :: rest)]
    dsimp only at encoded
    split at encoded
    case isTrue isUnit =>
      refine ⟨_, if_pos isUnit, caught _ ?_⟩
      rw [← copied, encoded, ← List.append_assoc]
    case isFalse isLetter =>
      refine ⟨_, if_neg isLetter, caught _ ?_⟩
      rw [← copied, encoded]

theorem Copying.Holds.run (holds : state.Holds before done) (rest : List UInt8) :
    ∃ last, (rest.zipIdx done.length).foldlM (Copying.next (done ++ rest)) state = .ok last ∧
      last.Holds before (done ++ rest) := by
  induction rest generalizing done state with
  | nil =>
    rw [List.append_nil]
    exact ⟨state, rfl, holds⟩
  | cons byte rest ih =>
    obtain ⟨following, next, holds⟩ := holds.next byte rest
    obtain ⟨last, run, holds⟩ := ih holds
    rw [List.append_assoc, List.singleton_append] at run holds
    refine ⟨last, ?_, holds⟩
    rw [List.zipIdx_cons, List.foldlM_cons, next]
    rwa [List.length_append, List.length_singleton] at run

/-- Copying in segments puts out the token, and every segment is in bounds. -/
theorem copy_eq (output : List UInt8) (text : List Char) :
    copy output text = .ok (output ++ quoted text) := by
  have starts : Copying.Holds (output ++ [Ascii.quote]) [] ⟨output ++ [Ascii.quote], 0⟩ :=
    ⟨Nat.le_refl _, rfl⟩
  obtain ⟨last, run, holds⟩ := starts.run (Utf8.encode text)
  rw [List.nil_append, List.length_nil] at run
  rw [List.nil_append] at holds
  have remaining := segment_append holds.start_le []
  rw [List.append_nil] at remaining
  calc
    copy output text =
        .ok (last.output ++ (Utf8.encode text).drop last.start ++ [Ascii.quote]) := by
      rw [copy, run]
      change (segment _ _ _ >>= fun part => pure (last.output ++ part ++ [Ascii.quote])) = _
      rw [remaining]
      rfl
    _ = .ok (output ++ quoted text) := by
      rw [holds.output_eq, quoted, List.append_assoc, List.append_assoc]
      rfl

/-! The form of a character -/

/-- How a character stands between the quotes of a token. -/
def form (char : Char) : List Char :=
  match char with
  | '"' => ['\\', '"']
  | '\\' => ['\\', '\\']
  | '\n' => ['\\', 'n']
  | '\r' => ['\\', 'r']
  | '\t' => ['\\', 't']
  | '\x08' => ['\\', 'b']
  | '\x0c' => ['\\', 'f']
  | _ =>
    if char.toNat < 0x20 then
      ['\\', 'u', '0', '0', (char.toNat / 16).digitChar, (char.toNat % 16).digitChar]
    else [char]

/-- A text as it stands between the quotes of its token. -/
def body (text : List Char) : List Char := text.flatMap form

theorem body_append (text more : List Char) : body (text ++ more) = body text ++ body more :=
  List.flatMap_append

theorem form_plain (isPlain : Grammar.IsPlain char) : form char = [char] := by
  obtain ⟨visible, notQuote, notBackslash⟩ := isPlain
  unfold form
  split
  case h_1 => contradiction
  case h_2 => contradiction
  case h_3 | h_4 | h_5 | h_6 | h_7 => exact absurd visible (by decide)
  case h_8 => rw [if_neg (by omega)]

/-- All characters but plain ones are ASCII. -/
theorem ascii_of_not_plain (special : ¬Grammar.IsPlain char) :
    char.toNat < 0x20 ∨ char = '"' ∨ char = '\\' := by
  by_contra other
  exact special ⟨by omega, by tauto, by tauto⟩

/-- The bytes of a character stand for its form. -/
theorem encode_form (char : Char) :
    (String.utf8EncodeChar char).flatMap encodeByte = Utf8.encode (form char) := by
  by_cases isPlain : Grammar.IsPlain char
  · have outside := StringToken.isPlain_iff.mp isPlain
    have same : ∀ byte ∈ String.utf8EncodeChar char, encodeByte byte = [byte] :=
      fun byte member => encodeByte_plain (outside byte member).1 (outside byte member).2
    rw [List.flatMap_congr same, List.flatMap_singleton', form_plain isPlain]
    exact (List.append_nil _).symm
  · rcases ascii_of_not_plain isPlain with control | rfl | rfl
    · have all : ∀ n < 0x20, (String.utf8EncodeChar (Char.ofNat n)).flatMap encodeByte =
          Utf8.encode (form (Char.ofNat n)) := by decide
      have := all char.toNat control
      rwa [Char.ofNat_toNat] at this
    · decide
    · decide

theorem quoted_eq (text : List Char) : quoted text = Utf8.encode ('"' :: body text ++ ['"']) := by
  have inside : (Utf8.encode text).flatMap encodeByte = Utf8.encode (body text) := by
    induction text with
    | nil => rfl
    | cons char text ih =>
      rw [Utf8.encode_cons, List.flatMap_append, encode_form, ih, ← Utf8.encode_append]
      rfl
  rw [quoted, inside, List.cons_append, List.cons_append, Utf8.encode_cons, Utf8.encode_append]
  rfl

theorem form_visible (char : Char) : ∀ other ∈ form char, 0x20 ≤ other.toNat := by
  by_cases isPlain : Grammar.IsPlain char
  · rw [form_plain isPlain]
    exact List.forall_mem_singleton.mpr isPlain.1
  · have all : ((form char).all fun other => 0x20 ≤ other.toNat) = true := by
      rcases ascii_of_not_plain isPlain with control | rfl | rfl
      · have controls : ∀ n < 0x20,
            ((form (Char.ofNat n)).all fun other => 0x20 ≤ other.toNat) = true := by decide
        have := controls char.toNat control
        rwa [Char.ofNat_toNat] at this
      · rfl
      · rfl
    exact fun other member => of_decide_eq_true (List.all_eq_true.mp all other member)

theorem visible_encode (visible : ∀ char ∈ text, 0x20 ≤ char.toNat) :
    ∀ byte ∈ Utf8.encode text, 0x20 ≤ byte := by
  intro byte member
  obtain ⟨char, inside, member⟩ := List.mem_flatMap.mp member
  have bound := visible char inside
  rw [UInt8.le_iff_toNat_le]
  rcases Utf8.encodeChar_cases char with ⟨ascii, encoded⟩ | ⟨_, large⟩
  · rw [encoded, List.mem_singleton] at member
    rw [member, UInt8.toNat_ofNat', Nat.mod_eq_of_lt (by omega)]
    exact bound
  · exact Nat.le_trans (by decide) (large byte member)

theorem digitChar_ne : ∀ digit < 16, '"' ≠ digit.digitChar ∧ digit.digitChar ≠ '\\' := by decide

/-- An escape is two characters or holds no quote, and what is no escape of two characters does not
end in a backslash. -/
theorem form_cases (char : Char) : (∃ letter, form char = ['\\', letter]) ∨
    '"' ∉ form char ∧ ∃ front last, form char = front ++ [last] ∧ last ≠ '\\' := by
  unfold form
  split
  case h_8 notQuote notBackslash _ _ _ _ _ =>
    split
    case isTrue control =>
      have high := digitChar_ne (char.toNat / 16) (by omega)
      have low := digitChar_ne (char.toNat % 16) (by omega)
      exact .inr ⟨by simp [high.1, low.1], ['\\', 'u', '0', '0', _], _, rfl, low.2⟩
    case isFalse => exact .inr ⟨by simpa using Ne.symm notQuote, [], char, rfl, notBackslash⟩
  all_goals exact .inl ⟨_, rfl⟩

/-! Backslashes in front of a quote -/

/-- The backslashes that a text ends in. -/
def backslashes (text : List Char) : List Char := text.rtakeWhile (· == '\\')

/-- Behind an even number of backslashes a character begins, and behind it another one. -/
theorem even_backslashes_form (even : Even (backslashes front).length) (char : Char) :
    Even (backslashes (front ++ form char)).length := by
  rcases form_cases char with ⟨letter, same⟩ | ⟨_, before, last, same, other⟩
  · have first : backslashes (front ++ ['\\']) = backslashes front ++ ['\\'] :=
      List.rtakeWhile_concat_pos _ _ _ rfl
    rw [same, ← List.singleton_append, ← List.append_assoc]
    by_cases isBackslash : letter = '\\'
    · have second : backslashes (front ++ ['\\'] ++ [letter]) =
          backslashes (front ++ ['\\']) ++ [letter] :=
        List.rtakeWhile_concat_pos _ _ _ (beq_iff_eq.mpr isBackslash)
      rw [second, first, List.length_append, List.length_append, Nat.add_assoc]
      exact even.add even_two
    · have none : backslashes (front ++ ['\\'] ++ [letter]) = [] :=
        List.rtakeWhile_concat_neg _ _ _ (by simpa using isBackslash)
      rw [none]
      exact Even.zero
  · have none : backslashes (front ++ before ++ [last]) = [] :=
      List.rtakeWhile_concat_neg _ _ _ (by simpa using other)
    rw [same, ← List.append_assoc, none]
    exact Even.zero

theorem odd_backslashes_form (even : Even (backslashes front).length) {before after : List Char}
    (split : form char = before ++ '"' :: after) : Odd (backslashes (front ++ before)).length := by
  rcases form_cases char with ⟨letter, same⟩ | ⟨noQuote, _⟩
  · rw [split] at same
    rcases List.append_eq_cons_iff.mp same with ⟨rfl, rest⟩ | ⟨before, rfl, rest⟩
    · cases rest
    · rcases List.append_eq_cons_iff.mp rest.symm with ⟨rfl, _⟩ | ⟨_, _, ended⟩
      · have first : backslashes (front ++ ['\\']) = backslashes front ++ ['\\'] :=
          List.rtakeWhile_concat_pos _ _ _ rfl
        rw [first, List.length_append]
        exact even.add_one
      · simp at ended
  · exact absurd (split ▸ by simp) noQuote

/-- In the body of a token an odd number of backslashes stands right before every quote. -/
theorem odd_backslashes_body (even : Even (backslashes front).length) {before after : List Char}
    (split : body text = before ++ '"' :: after) : Odd (backslashes (front ++ before)).length := by
  induction text generalizing front before with
  | nil => simp [body] at split
  | cons char text ih =>
    rw [body, List.flatMap_cons, ← body] at split
    rcases List.append_eq_append_iff.mp split with ⟨before, rfl, following⟩ | ⟨more, same, _⟩
    · rw [← List.append_assoc]
      exact ih (even_backslashes_form even char) following
    · cases more with
      | nil =>
        rw [List.append_nil] at same
        have even := even_backslashes_form even char
        rw [same] at even
        rw [same, List.append_cancel_left_eq] at split
        have following : Odd (backslashes (front ++ before ++ [])).length := ih even split
        rwa [List.append_nil] at following
      | cons quote more =>
        rw [same, List.append_assoc, List.append_cancel_left_eq] at split
        obtain rfl := (List.cons.inj split).1
        exact odd_backslashes_form even same

/-- Copied in segments, a text is put out as a token that is the form of each character in turn
between quotes, so its body is that of its parts. It is UTF-8 without a control character, and no
quote inside it could be taken for its end: an odd number of backslashes stands right before each. -/
theorem copied_by_form (output : List UInt8) (text : List Char) :
    copy output text = .ok (output ++ Utf8.encode ('"' :: body text ++ ['"'])) ∧
    quoted text = Utf8.encode ('"' :: body text ++ ['"']) ∧
    (∀ more, body (text ++ more) = body text ++ body more) ∧
    Utf8.decode (quoted text) = .ok ('"' :: body text ++ ['"']) ∧
    (∀ byte ∈ quoted text, 0x20 ≤ byte) ∧
    ∀ before after, body text = before ++ '"' :: after → Odd (backslashes before).length := by
  refine ⟨?_, quoted_eq text, body_append text, ?_, ?_, ?_⟩
  · rw [copy_eq, quoted_eq]
  · rw [quoted_eq, Utf8.decode_encode]
  · rw [quoted_eq]
    apply visible_encode
    simp only [List.mem_append, List.mem_cons, List.not_mem_nil, or_false, body, List.mem_flatMap]
    rintro char ((rfl | ⟨source, _, inside⟩) | rfl)
    · decide
    · exact form_visible source char inside
    · decide
  · intro before after split
    have odd : Odd (backslashes ([] ++ before)).length := odd_backslashes_body Even.zero split
    exact odd

/-- Of `a"` and U+0001 two characters are escaped, behind what was put out before; the quote inside
has its backslash. -/
theorem copied_by_form_control :
    copy [0x5b] ['a', '"', '\x01'] =
      .ok [0x5b, 0x22, 0x61, 0x5c, 0x22, 0x5c, 0x75, 0x30, 0x30, 0x30, 0x31, 0x22] ∧
    (0x20 : UInt8) ≤ 0x5c ∧ Odd (backslashes ['a', '\\']).length := by
  obtain ⟨copied, _, _, _, visible, escaped⟩ := copied_by_form [0x5b] ['a', '"', '\x01']
  exact ⟨copied, visible 0x5c (by decide), escaped ['a', '\\'] ['\\', 'u', '0', '0', '0', '1'] rfl⟩

end TypedJson.Escape
