import TypedJson.Proofs.Cursor.Tracking
import TypedJson.Proofs.Grammar.Value
import TypedJson.Proofs.Reader.Failure

/-! Cursors track readers over numbers, strings and the values that are single tokens. A string is
where places are computed the most: every segment, escape and surrogate moves the place by a length
that some other function found, so the scan carries the bound from one to the next. -/
namespace TypedJson.Cursor
open Grammar

variable {α β : Type} {document : List UInt8} {before : Cursor}

/-- A number that was scanned, and the place of its text. -/
structure Scanned (document : List UInt8) (before : Cursor) (numeral : Numeral) (after : Cursor) :
    Prop where
  number : Number numeral.text
  integral : numeral.integral = isIntegral numeral.text
  moves : Moves before numeral after
  text : document.extract before.position after.position = numeral.text

theorem numeral_tracks (bounds : InBounds document before) :
    Tracks document before (Scanned document before) ((numeral document).run before)
      (Reader.numeral.run (before.reader document)) := by
  rw [numeral, Reader.numeral, run_bind_of_ok run_get, Reader.run_bind_of_ok Reader.run_get,
    unread_reader]
  dsimp only
  have bound := bounds.position_le
  have left : (document.drop before.position).length = document.length - before.position :=
    List.length_drop
  cases scanned : Numeral.scan (document.drop before.position) with
  | ok number =>
    obtain ⟨valid, integral, rest, same, _⟩ := scan_sound scanned
    have length := congrArg List.length same
    rw [List.length_append, left] at length
    have nonempty : 0 < number.text.length := by
      obtain ⟨byte, head, _⟩ := number_starts valid
      exact List.length_pos_of_mem (List.mem_of_mem_head? head)
    have text : document.extract before.position (before.position + number.text.length) =
        number.text := by
      rw [List.extract_eq_take_drop, Nat.add_sub_cancel_left]
      exact (congrArg (List.take number.text.length) same).trans List.take_left
    have fits : before.position + number.text.length ≤ document.length := by omega
    apply (consume_tracks bounds fits rfl).bind
    rintro _ _ later rfl
    exact pure_tracks later.toInBounds
      ⟨valid, integral, ⟨Nat.lt_add_of_pos_right nonempty, rfl⟩, text⟩
  | error distance =>
    have short := scan_error scanned
    exact .error bounds.later (Nat.le_add_right _ _) (by dsimp only; omega)

/-! String tokens. The scan knows the places of its faults as distances from the opening quote. -/

/-- What a guarded scan of the token at `start` leads to is what the scan of its bytes leads to. A
fault is told by its distance, and stays in bounds. -/
inductive Scans (document : List UInt8) (start : Cursor) (post : α → Cursor → β → Prop) :
    EStateM.Result Failure Cursor α → Except Escape.Fault β → Prop where
  | ok {value : α} {found : β} {last : Cursor} : post value last found →
      Scans document start post (.ok value last) (.ok found)
  | error {cause : SyntaxError} {distance offset : Nat} {stops : Bool} {last : Cursor} :
      offset = start.position + distance → offset ≤ document.length →
      last = (if stops then { start with position := offset } else start) →
        Scans document start post (.error (.error ⟨cause, none, offset⟩) last)
          (.error ⟨cause, distance, stops⟩)

theorem Scans.bind {α' β' : Type} {start : Cursor} {scanned : α → Cursor → β → Prop}
    {post : α' → Cursor → β' → Prop} {step : Guarded α} {m : Except Escape.Fault β}
    {k : α → Guarded α'} {k' : β → Except Escape.Fault β'}
    (first : Scans document start scanned (step.run before) m)
    (following : ∀ value after found, scanned value after found →
      Scans document start post ((k value).run after) (k' found)) :
    Scans document start post ((step >>= k).run before) (m >>= k') := by
  rw [EStateM.run_bind]
  revert first
  generalize step.run before = result
  intro first
  cases first with
  | ok holds => exact following _ _ _ holds
  | error place bound stands => exact .error place bound stands

theorem plain_scans {start : Cursor} {first : Nat} {segment : List UInt8}
    (inside : start.position ≤ first) (bound : first + segment.length ≤ document.length) :
    Scans document start (fun chars after found => after = start ∧ found = chars)
      ((plain first segment).run start)
      (StringToken.plain (first - start.position) segment) := by
  have place (distance : Nat) : first + distance =
      start.position + (first - start.position + distance) := by omega
  rw [plain, StringToken.plain]
  cases control : segment.findIdx? Ascii.isControl with
  | some distance =>
    have short : distance < segment.length := (List.findIdx?_eq_some_iff_findIdx_eq.mp control).1
    have found : segment[distance]? = some (segment.getD distance 0) := by
      rw [List.getD_eq_getElem?_getD, List.getElem?_eq_getElem short, Option.getD_some]
    have moves : (moveTo (first + distance)).run start =
        .ok () { start with position := first + distance } := rfl
    dsimp only
    rw [run_bind_of_ok moves, run_bind_of_ok (byteAt_of found), run_failAt]
    exact .error (place distance) (by omega) rfl
  | none =>
    cases decoded : Utf8.decode segment with
    | ok chars => exact .ok ⟨rfl, rfl⟩
    | error valid =>
      have short := Utf8.decode_error decoded
      dsimp only
      rw [run_failAt]
      exact .error (place valid) (by omega) rfl

theorem escape_scans {start : Cursor} {last : Nat} (inside : start.position ≤ last)
    (bound : last < document.length) :
    Scans document start
      (fun found after found' => after = start ∧ found' = found ∧ 0 < found.2 ∧
        last + found.2 ≤ document.length)
      ((escape document start.position last).run start)
      (Escape.decode (last - start.position) (document.drop (last + 1))) := by
  have left : (document.drop (last + 1)).length = document.length - (last + 1) := List.length_drop
  rw [escape]
  cases decoded : Escape.decode (last - start.position) (document.drop (last + 1)) with
  | ok found =>
    obtain ⟨char, size⟩ := found
    obtain ⟨text, _, rfl, rest, same⟩ := Escape.decode_sound decoded
    have length := congrArg List.length same
    rw [left, List.length_append] at length
    exact .ok ⟨rfl, rfl, Nat.succ_pos _, by dsimp only; omega⟩
  | error fault =>
    have isEscape := Escape.decode_faults (Nat.le_refl _) decoded
    have short := isEscape.distance_le
    have stands : start = (if fault.stops then
        { start with position := start.position + fault.distance } else start) := by
      rw [isEscape.unread, if_neg Bool.false_ne_true]
    exact .error rfl (by omega) stands

/-- Where the text from `first` on has its next delimiter. -/
theorem segment_of {first : Nat} {run rest : List UInt8} {delimiter : UInt8}
    (same : document.drop first = run ++ delimiter :: rest) (bound : first ≤ document.length) :
    first + run.length < document.length ∧ document.extract first (first + run.length) = run ∧
      document[first + run.length]? = some delimiter ∧
      document.drop (first + run.length + 1) = rest := by
  have length := congrArg List.length same
  rw [List.length_drop, List.length_append, List.length_cons] at length
  refine ⟨by omega, ?_, ?_, ?_⟩
  · rw [List.extract_eq_take_drop, Nat.add_sub_cancel_left, same, List.take_left]
  · rw [← List.getElem?_drop, same, List.getElem?_append_right (Nat.le_refl _), Nat.sub_self]
    rfl
  · rw [Nat.add_assoc, ← List.drop_drop, same, ← List.drop_drop, List.drop_left]
    rfl

theorem findIdx?_run {run rest : List UInt8} {delimiter : UInt8}
    (outside : ∀ byte ∈ run, Ascii.isDelimiter byte = false)
    (isDelimiter : Ascii.isDelimiter delimiter = true) :
    (run ++ delimiter :: rest).findIdx? Ascii.isDelimiter = some run.length := by
  rw [List.findIdx?_append, List.findIdx?_eq_none_iff.mpr outside]
  simp [List.findIdx?_cons, isDelimiter]

theorem textFrom_scans {start : Cursor} {turns first : Nat} (inside : start.position < first)
    (bound : first ≤ document.length) (enough : document.length < first + turns) :
    Scans document start
      (fun chars after found => chars = found.1 ∧
        after = { start with position := start.position + found.2 } ∧ 0 < found.2 ∧
        start.position + found.2 ≤ document.length)
      ((textFrom document start.position turns first).run start)
      (StringToken.body (first - start.position) (document.drop first)) := by
  induction turns generalizing first with
  | zero => omega
  | succ turns ih =>
    have ordered : start.position ≤ first := Nat.le_of_lt inside
    rw [textFrom, run_bind_of_ok (slice_of bound (Nat.le_refl _)), extract_length]
    rcases StringToken.exists_run (document.drop first) with
      outside | ⟨run, delimiter, rest, outside, isDelimiter, same⟩
    · have missing : (document.drop first).findIdx? Ascii.isDelimiter = none :=
        List.findIdx?_eq_none_iff.mpr outside
      have moves : (moveTo document.length).run start =
          .ok () { start with position := document.length } := rfl
      rw [missing, StringToken.body_outside outside]
      dsimp only
      rw [run_bind_of_ok moves, run_failAt]
      exact .error (by rw [List.length_drop]; omega) (Nat.le_refl _) rfl
    · obtain ⟨short, segment, found, following⟩ := segment_of same bound
      rw [same, findIdx?_run outside isDelimiter, StringToken.body_append outside isDelimiter]
      dsimp only
      rw [run_bind_of_ok (slice_of (Nat.le_add_right _ _) (Nat.le_of_lt short)), segment]
      apply (plain_scans ordered (Nat.le_of_lt short)).bind
      rintro chars after _ ⟨rfl, rfl⟩
      rw [run_bind_of_ok (byteAt_of found)]
      have total : first - after.position + run.length = first + run.length - after.position := by
        omega
      rw [total]
      split
      case isTrue =>
        have place : first + run.length + 1 =
            after.position + (first + run.length - after.position + 1) := by omega
        refine .ok ⟨rfl, ?_, Nat.succ_pos _, ?_⟩
        · exact congrArg (fun position => ({ after with position } : Cursor)) place
        · rwa [← place]
      case isFalse =>
        rw [← following]
        apply (escape_scans (by omega) short).bind
        rintro ⟨char, size⟩ last _ ⟨rfl, rfl, positive, fits⟩
        dsimp only at positive fits ⊢
        have distance : first + run.length - last.position + size =
            first + run.length + size - last.position := by omega
        have next : first + run.length + 1 + (size - 1) = first + run.length + size := by omega
        rw [List.drop_drop, next, distance]
        apply (ih (by omega) fits (by omega)).bind
        rintro _ _ ⟨chars', total⟩ ⟨rfl, rfl, holds⟩
        exact .ok ⟨rfl, rfl, holds⟩

theorem stringToken_scans (quote : document[before.position]? = some Ascii.quote) :
    Scans document before
      (fun text after found => text = found.1 ∧
        after = { before with position := before.position + found.2 } ∧ 0 < found.2 ∧
        before.position + found.2 ≤ document.length)
      ((stringToken document).run before)
      (StringToken.scan (document.drop before.position)) := by
  have inside : before.position < document.length := (List.getElem?_eq_some_iff.mp quote).1
  have enough : document.length < before.position + 1 + document.length := by omega
  have scanned := textFrom_scans (Nat.lt_succ_self before.position) inside enough
  rw [Nat.succ_eq_add_one, Nat.add_sub_cancel_left] at scanned
  rw [stringToken, run_bind_of_ok run_get, run_bind_of_ok (require_of quote), StringToken.scan,
    List.drop_drop]
  apply scanned.bind
  rintro chars after ⟨chars, total⟩ ⟨rfl, holds⟩
  exact .ok ⟨rfl, holds⟩

theorem stringToken_tracks (bounds : InBounds document before)
    (quote : document[before.position]? = some Ascii.quote) :
    Tracks document before (Moves before) ((stringToken document).run before)
      (Reader.stringToken.run (before.reader document)) := by
  have scanned := stringToken_scans quote
  rw [Reader.stringToken, Reader.run_bind_of_ok Reader.run_get, unread_reader]
  revert scanned
  generalize (stringToken document).run before = result,
    StringToken.scan (document.drop before.position) = found
  intro scanned
  cases scanned with
  | @ok text found last holds =>
    obtain ⟨text, total⟩ := found
    obtain ⟨rfl, rfl, positive, fits⟩ := holds
    change Tracks document before _ (.ok text _)
      (.ok text ((before.reader document).advance total))
    rw [reader_advance]
    exact .ok (moved bounds (Nat.le_add_right _ _) fits) ⟨Nat.lt_add_of_pos_right positive, rfl⟩
  | @error cause distance offset stops last place fits stands =>
    subst place stands
    cases stops with
    | true =>
      change Tracks document before _ (.error (.error ⟨cause, none, _⟩) _)
        (.error ⟨cause, none, _⟩ ((before.reader document).advance distance))
      rw [reader_advance]
      exact .error (moved bounds (Nat.le_add_right _ _) fits) (Nat.le_add_right _ _) fits
    | false => exact .error bounds.later (Nat.le_add_right _ _) fits

/-! Values that are single tokens -/

theorem boolean_tracks (bounds : InBounds document before) :
    Tracks document before (fun _ _ => True) ((boolean document).run before)
      (Reader.boolean.run (before.reader document)) := by
  apply (expect_tracks bounds).bind
  intro byte middle later _
  split
  case isTrue =>
    exact (literal_tracks later.toInBounds).bind fun _ _ later _ =>
      pure_tracks later.toInBounds trivial
  case isFalse =>
    exact (literal_tracks later.toInBounds).bind fun _ _ later _ =>
      pure_tracks later.toInBounds trivial

theorem lexeme_of {numeral : Numeral} {start after : Cursor}
    (scanned : Scanned document start numeral after) (later : Later document start after) :
    (lexeme document start.position numeral.integral).run after = .ok numeral after := by
  rw [lexeme, run_bind_of_ok run_get,
    run_bind_of_ok (slice_of later.position_le_position later.position_le), scanned.text]
  rfl

theorem integer_tracks (bounds : InBounds document before) (type : IntegerType) :
    Tracks document before (fun _ _ => True) ((integer document type).run before)
      ((Reader.integer type).run (before.reader document)) := by
  apply (expect_tracks bounds).bind
  intro byte start later _
  rw [run_bind_of_ok run_get, Reader.run_bind_of_ok Reader.run_get]
  apply (numeral_tracks later.toInBounds).bind_from
  intro token after later' scanned
  -- what is refused is refused at the start of its token
  have refuse {cause : Cause} {context : Option String} :
      Tracks document start (fun (_ : BoundedInt type) _ => True)
        ((failAt start.position cause context).run after)
        ((Reader.failAt start.position cause context).run (after.reader document)) :=
    failAt_tracks later' (Nat.le_refl _) later.position_le
  split
  case isTrue whole =>
    have digits : (token.unsigned.all fun digit => Ascii.zero ≤ digit) = true := by
      apply List.all_eq_true.mpr
      intro digit member
      have isDigit := Numeral.unsigned_isDigit scanned.number (scanned.integral ▸ whole)
        digit member
      rw [Ascii.isDigit, Bool.and_eq_true] at isDigit
      exact isDigit.1
    rw [run_bind_of_ok (lexeme_of scanned later'), run_bind_of_ok (require_of digits)]
    dsimp only
    split
    case isTrue =>
      split
      case isTrue => exact (pure_tracks later'.toInBounds trivial).later later'
      case isFalse => exact refuse
    case isFalse => exact refuse
  case isFalse => exact refuse

theorem real_tracks (bounds : InBounds document before) :
    Tracks document before (fun _ _ => True) ((real document).run before)
      (Reader.real.run (before.reader document)) := by
  apply (expect_tracks bounds).bind
  intro byte start later _
  rw [run_bind_of_ok run_get, Reader.run_bind_of_ok Reader.run_get]
  apply (numeral_tracks later.toInBounds).bind_from
  intro token after later' scanned
  rw [run_bind_of_ok (lexeme_of scanned later')]
  dsimp only
  split
  case isTrue => exact (pure_tracks later'.toInBounds trivial).later later'
  case isFalse => exact failAt_tracks later' (Nat.le_refl _) later.position_le

theorem string_tracks (bounds : InBounds document before) :
    Tracks document before (fun _ _ => True) ((string document).run before)
      (Reader.string.run (before.reader document)) := by
  apply (expect_tracks bounds).bind
  rintro byte start later ⟨⟨head, _⟩, quote⟩
  rw [beq_iff_eq.mp quote] at head
  exact (stringToken_tracks later.toInBounds head).imp fun _ _ _ _ => trivial

/-- A string token that is then looked at, and refused where it began. -/
theorem spelled_tracks {expected : SchemaError} {k : String → Cursor → Guarded α}
    {k' : String → Reader → Read α} (bounds : InBounds document before)
    (follows : ∀ ⦃text start after⦄, InBounds document start → Later document start after →
      Tracks document start (fun _ _ => True) ((k text start).run after)
        ((k' text (start.reader document)).run (after.reader document))) :
    Tracks document before (fun _ _ => True)
      ((expect document (· == Ascii.quote) expected >>= fun _ => get >>= fun start =>
        stringToken document >>= fun text => k text start).run before)
      ((Reader.expect (· == Ascii.quote) expected >>= fun _ => get >>= fun start =>
        Reader.stringToken >>= fun text => k' text start).run (before.reader document)) := by
  apply (expect_tracks bounds).bind
  rintro byte start later ⟨⟨head, _⟩, quote⟩
  rw [beq_iff_eq.mp quote] at head
  rw [run_bind_of_ok run_get, Reader.run_bind_of_ok Reader.run_get]
  apply (stringToken_tracks later.toInBounds head).bind_from
  exact fun text after later' _ => follows later.toInBounds later'

theorem binary_tracks (bounds : InBounds document before) (width : Nat) :
    Tracks document before (fun _ _ => True) ((binary document width).run before)
      ((Reader.binary width).run (before.reader document)) := by
  apply spelled_tracks bounds
  intro text start after bounds later
  cases Hex.decode width (Utf8.encode text.toList) with
  | ok => exact (pure_tracks later.toInBounds trivial).later later
  | error => exact failAt_tracks later (Nat.le_refl _) bounds.position_le

theorem enumeration_tracks (bounds : InBounds document before) (names : List String) :
    Tracks document before (fun _ _ => True) ((enumeration document names).run before)
      ((Reader.enumeration names).run (before.reader document)) := by
  apply spelled_tracks bounds
  intro text start after bounds later
  cases names.idxOf? text with
  | some => exact (pure_tracks later.toInBounds trivial).later later
  | none => exact failAt_tracks later (Nat.le_refl _) bounds.position_le

end TypedJson.Cursor
