import TypedJson.Proofs.Cursor.Token

/-! Strings decoded as a reader keeps them. A token without an escape is lent out of the document;
the first escape moves what was read into a buffer that all tokens share. What an earlier token left
there, even one that failed, is never seen: step by step this scan mirrors the one that keeps no
buffer, whatever the buffer holds. -/
namespace TypedJson.Cursor
open Grammar

/-- A cursor, and the buffer that its reader decodes strings in. -/
structure Buffered where
  cursor : Cursor
  scratch : String

/-- A step of a cursor with a buffer. -/
abbrev Decoding := EStateM Failure Buffered

/-- Where the text of a string token is lent from. -/
inductive Lent where
  | document (first last : Nat)
  | scratch
deriving DecidableEq, Repr

/-- The bytes that are lent. -/
def Lent.bytes (document : List UInt8) (scratch : String) : Lent → List UInt8
  | .document first last => document.extract first last
  | .scratch => Utf8.encode scratch.toList

variable {α β : Type}

/-- A step that does not touch the buffer. -/
def apart (step : Guarded α) : Decoding α := fun state =>
  match step.run state.cursor with
  | .ok value cursor => .ok value { state with cursor }
  | .error failure cursor => .error failure { state with cursor }

def push (chars : List Char) : Decoding Unit :=
  modify fun state => { state with scratch := state.scratch ++ String.ofList chars }

/-- Puts what stands before an escape in the buffer, which is cleared for the first of a token. -/
def gather (owned : Bool) (chars : List Char) : Decoding Unit := do
  if !owned then modify fun state => { state with scratch := "" }
  push chars

variable (document : List UInt8)

/-- Decodes the rest, from `first` on, of the string token at `start`. What was read of it before is
in the buffer if an escape was met, as `owned` tells. -/
def decodeFrom (start : Nat) : (turns first : Nat) → (owned : Bool) → Decoding Lent
  | 0, _, _ => throw (.breach .endless)
  | turns + 1, first, owned => do
    match (← apart (slice document first document.length)).findIdx? Ascii.isDelimiter with
    | none => do
      apart (moveTo document.length)
      apart (failAt document.length SyntaxError.unterminatedString none)
    | some length => do
      let last := first + length
      let segment ← apart (slice document first last)
      let chars ← apart (plain first segment)
      if (← apart (byteAt document last)) == Ascii.quote then
        apart (moveTo (last + 1))
        if owned then
          push chars
          return .scratch
        else return .document first last
      else
        gather owned chars
        let (char, size) ← apart (escape document start last)
        push [char]
        decodeFrom start turns (last + size) true

def decodeString : Decoding Lent := do
  let start ← apart get
  apart (require (document[start.position]? = some Ascii.quote) .quote)
  decodeFrom document start.position document.length (start.position + 1) false

/-- What a caller sees of a token that is lent: its bytes, and where the cursor is left. -/
def seen : EStateM.Result Failure Buffered Lent → EStateM.Result Failure Cursor (List UInt8)
  | .ok lent after => .ok (lent.bytes document after.scratch) after.cursor
  | .error failure after => .error failure after.cursor

/-! The scan mirrors the one without a buffer -/

/-- A step with a buffer ends as one without it does: with a value that goes with the other's, or
with the same failure. -/
inductive Mirrors (post : α → Cursor → β → String → Prop) :
    EStateM.Result Failure Cursor α → EStateM.Result Failure Buffered β → Prop where
  | ok {value : α} {value' : β} {after : Cursor} {scratch : String} :
      post value after value' scratch → Mirrors post (.ok value after) (.ok value' ⟨after, scratch⟩)
  | error {failure : Failure} {after : Cursor} {scratch : String} :
      Mirrors post (.error failure after) (.error failure ⟨after, scratch⟩)

variable {document} {before : Cursor} {scratch : String}

theorem run_apart (step : Guarded α) (before : Cursor) (scratch : String) :
    Mirrors (fun value _ value' scratch' => value' = value ∧ scratch' = scratch) (step.run before)
      ((apart step).run ⟨before, scratch⟩) := by
  change Mirrors _ _ (match step.run before with
    | .ok value cursor => .ok value ⟨cursor, scratch⟩
    | .error failure cursor => .error failure ⟨cursor, scratch⟩)
  cases step.run before with
  | ok => exact .ok ⟨rfl, rfl⟩
  | error => exact .error

/-- A step apart from the buffer, and then whatever mirrors what follows it. -/
theorem Mirrors.apart_bind {γ : Type} {step : Guarded γ} {k : γ → Guarded α} {k' : γ → Decoding β}
    {post : α → Cursor → β → String → Prop}
    (following : ∀ value after, step.run before = .ok value after →
      Mirrors post ((k value).run after) ((k' value).run ⟨after, scratch⟩)) :
    Mirrors post ((step >>= k).run before) ((apart step >>= k').run ⟨before, scratch⟩) := by
  have first := run_apart step before scratch
  rw [EStateM.run_bind, EStateM.run_bind]
  revert following first
  generalize step.run before = result, (apart step).run ⟨before, scratch⟩ = result'
  intro following first
  cases first with
  | ok same =>
    obtain ⟨rfl, rfl⟩ := same
    exact following _ _ rfl
  | error => exact .error

theorem Mirrors.map {γ : Type} {step : Guarded α} {step' : Decoding β} {f : α → γ}
    {post : α → Cursor → β → String → Prop} {post' : γ → Cursor → β → String → Prop}
    (mirrors : Mirrors post (step.run before) (step'.run ⟨before, scratch⟩))
    (implies : ∀ value after value' scratch', post value after value' scratch' →
      post' (f value) after value' scratch') :
    Mirrors post' ((step >>= fun value => pure (f value)).run before)
      (step'.run ⟨before, scratch⟩) := by
  rw [EStateM.run_bind]
  revert mirrors
  generalize step.run before = result, step'.run ⟨before, scratch⟩ = result'
  intro mirrors
  cases mirrors with
  | ok holds => exact .ok (implies _ _ _ _ holds)
  | error => exact .error

theorem push_bind {chars : List Char} {k : Unit → Decoding α} :
    (push chars >>= k).run ⟨before, scratch⟩ =
      (k ()).run ⟨before, scratch ++ String.ofList chars⟩ := rfl

theorem gather_bind {owned : Bool} {chars : List Char} {k : Unit → Decoding α} :
    (gather owned chars >>= k).run ⟨before, scratch⟩ =
      (k ()).run ⟨before, (if owned then scratch else "") ++ String.ofList chars⟩ := by
  cases owned <;> rfl

theorem slice_ok {bytes value : List UInt8} {first last : Nat} {after : Cursor}
    (ran : (slice bytes first last).run before = .ok value after) :
    (first ≤ last ∧ last ≤ bytes.length) ∧ value = bytes.extract first last := by
  by_cases holds : first ≤ last ∧ last ≤ bytes.length
  · rw [slice_of holds.1 holds.2] at ran
    cases ran
    exact ⟨holds, rfl⟩
  · rw [slice, require, if_neg holds] at ran
    cases ran

theorem byteAt_ok {bytes : List UInt8} {place : Nat} {byte : UInt8} {after : Cursor}
    (ran : (byteAt bytes place).run before = .ok byte after) : bytes[place]? = some byte := by
  rw [byteAt] at ran
  split at ran
  case h_1 found =>
    cases ran
    exact found
  case h_2 => cases ran

theorem plain_ok {first : Nat} {segment : List UInt8} {chars : List Char} {after : Cursor}
    (ran : (plain first segment).run before = .ok chars after) : segment = Utf8.encode chars := by
  rw [plain] at ran
  split at ran
  case h_1 place _ =>
    have moves : (moveTo (first + place)).run before =
        .ok () { before with position := first + place } := rfl
    rw [run_bind_of_ok moves, EStateM.run_bind] at ran
    split at ran <;> cases ran
  case h_2 =>
    split at ran
    case h_1 decoded =>
      cases ran
      exact Utf8.decode_sound decoded
    case h_2 => cases ran

/-- Where a scan from `first` on meets a delimiter, the bytes up to it are none. -/
theorem delimited {first length : Nat} (bound : first ≤ document.length)
    (found : (document.extract first document.length).findIdx? Ascii.isDelimiter = some length) :
    (∀ byte ∈ document.extract first (first + length), Ascii.isDelimiter byte = false) ∧
      ∃ byte, document[first + length]? = some byte ∧ Ascii.isDelimiter byte = true := by
  rw [extract_length] at found
  rcases StringToken.exists_run (document.drop first) with
    outside | ⟨run, delimiter, rest, outside, isDelimiter, same⟩
  · rw [List.findIdx?_eq_none_iff.mpr outside] at found
    cases found
  · rw [same, findIdx?_run outside isDelimiter, Option.some.injEq] at found
    subst found
    obtain ⟨_, segment, head, _⟩ := segment_of same bound
    exact ⟨by rwa [segment], delimiter, head, isDelimiter⟩

theorem mem_extract_iff {bytes : List UInt8} {first last : Nat} {byte : UInt8} :
    byte ∈ bytes.extract first last ↔
      ∃ place, first ≤ place ∧ place < last ∧ bytes[place]? = some byte := by
  rw [List.extract_eq_take_drop, List.mem_iff_getElem?]
  constructor
  · rintro ⟨distance, found⟩
    rw [List.getElem?_take] at found
    split at found
    case isTrue short =>
      rw [List.getElem?_drop] at found
      exact ⟨first + distance, by omega, by omega, found⟩
    case isFalse => cases found
  · rintro ⟨place, low, high, found⟩
    refine ⟨place - first, ?_⟩
    rw [List.getElem?_take_of_lt (by omega), List.getElem?_drop, Nat.add_sub_cancel' low, found]

theorem backslash_not_mem {first last : Nat}
    (outside : ∀ byte ∈ document.extract first last, Ascii.isDelimiter byte = false)
    (quote : document[last]? = some Ascii.quote) :
    Ascii.backslash ∉ document.extract first (last + 1) := by
  intro member
  obtain ⟨place, low, high, found⟩ := mem_extract_iff.mp member
  rcases Nat.lt_succ_iff_lt_or_eq.mp high with inside | rfl
  · have none := outside _ (mem_extract_iff.mpr ⟨place, low, inside, found⟩)
    exact Bool.false_ne_true (none.symm.trans (by decide))
  · exact absurd (quote.symm.trans found) (by decide)

/-- Where the text of a token is lent from, when `chars` were decoded of it from `first` on to the
cursor. -/
inductive Keeps (document : List UInt8) (first : Nat) (chars : List Char) (after : Cursor)
    (scratch : String) : (owned : Bool) → Lent → String → Prop where
  /-- No escape was met: the text is a part of the document, and the buffer is as it was. -/
  | document {last : Nat} : after.position = last + 1 →
      document.extract first last = Utf8.encode chars →
      Ascii.backslash ∉ document.extract first after.position →
        Keeps document first chars after scratch false (.document first last) scratch
  /-- The first escape was met: what the buffer held is gone. -/
  | replaced : Ascii.backslash ∈ document.extract first after.position →
      Keeps document first chars after scratch false .scratch (String.ofList chars)
  /-- The buffer holds the token from its first escape on. -/
  | appended : Keeps document first chars after scratch true .scratch
      (scratch ++ String.ofList chars)

theorem decodeFrom_mirrors {start turns first : Nat} {owned : Bool} :
    Mirrors
      (fun chars after lent scratch' =>
        first < after.position ∧ Keeps document first chars after scratch owned lent scratch')
      ((textFrom document start turns first).run before)
      ((decodeFrom document start turns first owned).run ⟨before, scratch⟩) := by
  induction turns generalizing first owned before scratch with
  | zero => exact .error
  | succ turns ih =>
    -- both look up the next delimiter, the text before it and the delimiter in turn
    rw [textFrom, decodeFrom]
    apply Mirrors.apart_bind
    intro ahead before ran
    obtain ⟨⟨bound, _⟩, rfl⟩ := slice_ok ran
    cases found : (document.extract first document.length).findIdx? Ascii.isDelimiter with
    | none =>
      apply Mirrors.apart_bind
      intro _ before ran
      exact .error
    | some length =>
      obtain ⟨outside, delimiter, stands, isDelimiter⟩ := delimited bound found
      dsimp only
      apply Mirrors.apart_bind
      intro segment before ran
      obtain ⟨-, rfl⟩ := slice_ok ran
      apply Mirrors.apart_bind
      intro chars before ran
      have text := plain_ok ran
      apply Mirrors.apart_bind
      intro byte before ran
      cases stands.symm.trans (byteAt_ok ran)
      split
      case isTrue quote =>
        apply Mirrors.apart_bind
        intro _ after ran
        cases ran
        cases owned with
        | true => exact .ok ⟨by dsimp only; omega, .appended⟩
        | false =>
          rw [beq_iff_eq.mp quote] at stands
          exact .ok ⟨by dsimp only; omega, .document rfl text (backslash_not_mem outside stands)⟩
      case isFalse notQuote =>
        have isBackslash : delimiter = Ascii.backslash := by
          rw [Ascii.isDelimiter, Bool.or_eq_true] at isDelimiter
          exact beq_iff_eq.mp (isDelimiter.resolve_left notQuote)
        -- from here on the buffer holds the token, however it was lent before
        rw [gather_bind]
        apply Mirrors.apart_bind
        rintro ⟨char, size⟩ before -
        dsimp only
        rw [push_bind]
        apply ih.map
        rintro following after lent scratch' ⟨later, keeps⟩
        cases keeps
        refine ⟨by omega, ?_⟩
        rw [String.append_assoc, String.append_assoc, ← String.ofList_append,
          ← String.ofList_append, List.singleton_append]
        cases owned with
        | true => exact .appended
        | false =>
          rw [if_neg Bool.false_ne_true, String.empty_append]
          exact .replaced (mem_extract_iff.mpr
            ⟨first + length, Nat.le_add_right _ _, by omega, isBackslash ▸ stands⟩)

/-- A token that was decoded, its text and what it is lent from. -/
structure Lends (document : List UInt8) (before : Cursor) (scratch text : String) (after : Cursor)
    (lent : Lent) (scratch' : String) : Prop where
  bytes_eq : lent.bytes document scratch' = Utf8.encode text.toList
  escaped : Ascii.backslash ∈ document.extract before.position after.position →
    lent = .scratch ∧ scratch' = text
  plain : Ascii.backslash ∉ document.extract before.position after.position →
    lent = .document (before.position + 1) (after.position - 1) ∧ scratch' = scratch

theorem Keeps.lends {chars : List Char} {after : Cursor} {lent : Lent} {scratch' : String}
    (quote : document[before.position]? = some Ascii.quote)
    (keeps : Keeps document (before.position + 1) chars after scratch false lent scratch') :
    Lends document before scratch (String.ofList chars) after lent scratch' := by
  -- the opening quote is no backslash
  have inner : Ascii.backslash ∈ document.extract before.position after.position ↔
      Ascii.backslash ∈ document.extract (before.position + 1) after.position := by
    simp only [mem_extract_iff]
    refine exists_congr fun place => ⟨fun ⟨low, high, found⟩ => ⟨?_, high, found⟩,
      fun ⟨low, high, found⟩ => ⟨by omega, high, found⟩⟩
    rcases Nat.lt_or_eq_of_le low with inside | rfl
    · exact inside
    · exact absurd (quote.symm.trans found) (by decide)
  cases keeps with
  | document stands text outside =>
    refine ⟨?_, fun escape => absurd (inner.mp escape) outside, fun _ => ⟨?_, rfl⟩⟩
    · rw [Lent.bytes, text, String.toList_ofList]
    · rw [stands, Nat.add_sub_cancel]
  | replaced escape =>
    exact ⟨rfl, fun _ => ⟨rfl, rfl⟩, fun outside => absurd (inner.mpr escape) outside⟩

theorem decodeString_mirrors (quote : document[before.position]? = some Ascii.quote)
    (scratch : String) :
    Mirrors (Lends document before scratch) ((stringToken document).run before)
      ((decodeString document).run ⟨before, scratch⟩) := by
  rw [stringToken, decodeString]
  apply Mirrors.apart_bind
  rintro start _ ⟨⟩
  apply Mirrors.apart_bind
  rw [require_of quote]
  rintro _ _ ⟨⟩
  apply decodeFrom_mirrors.map
  rintro chars after lent scratch' ⟨_, keeps⟩
  exact keeps.lends quote

/-- What is seen of a token is what a reader reads there. -/
inductive Agrees (document : List UInt8) :
    EStateM.Result Failure Cursor (List UInt8) → EStateM.Result Error Reader String → Prop where
  | ok {text : String} {after : Cursor} :
      Agrees document (.ok (Utf8.encode text.toList) after) (.ok text (after.reader document))
  | error {error : Error} {after : Cursor} :
      Agrees document (.error (.error error) after) (.error error (after.reader document))

theorem seen_agrees (quote : document[before.position]? = some Ascii.quote) :
    Agrees document (seen document ((decodeString document).run ⟨before, scratch⟩))
      (Reader.stringToken.run (before.reader document)) := by
  have mirrors := decodeString_mirrors quote scratch
  have scans := stringToken_scans quote
  rw [Reader.stringToken, Reader.run_bind_of_ok Reader.run_get, unread_reader]
  revert mirrors scans
  generalize (stringToken document).run before = result,
    StringToken.scan (document.drop before.position) = found,
    (decodeString document).run ⟨before, scratch⟩ = result'
  intro mirrors scans
  cases scans with
  | @ok text found last holds =>
    obtain ⟨text, total⟩ := found
    obtain ⟨rfl, rfl, _⟩ := holds
    cases mirrors with
    | @ok _ lent _ scratch' lends =>
      change Agrees document (.ok (lent.bytes document scratch') _)
        (.ok text ((before.reader document).advance total))
      rw [lends.bytes_eq, reader_advance]
      exact .ok
  | @error cause distance offset stops last place _ stands =>
    subst place stands
    cases mirrors
    cases stops with
    | true =>
      change Agrees document (.error (.error ⟨cause, none, _⟩) _)
        (.error ⟨cause, none, _⟩ ((before.reader document).advance distance))
      rw [reader_advance]
      exact .error
    | false => exact .error

theorem reader_injective {cursor cursor' : Cursor}
    (same : cursor.reader document = cursor'.reader document) : cursor = cursor' := by
  cases cursor
  cases cursor'
  rw [reader, reader, Reader.mk.injEq] at same
  exact Cursor.mk.injEq .. ▸ same.2

theorem Agrees.unique {result result' : EStateM.Result Failure Cursor (List UInt8)}
    {read : EStateM.Result Error Reader String} (agrees : Agrees document result read)
    (agrees' : Agrees document result' read) : result = result' := by
  generalize same : read = read' at agrees'
  cases agrees with
  | ok =>
    cases agrees' with
    | ok =>
      obtain ⟨rfl, stands⟩ := EStateM.Result.ok.inj same
      rw [reader_injective stands]
    | error => cases same
  | error =>
    cases agrees' with
    | ok => cases same
    | error =>
      obtain ⟨rfl, stands⟩ := EStateM.Result.error.inj same
      rw [reader_injective stands]

theorem token_ne_nil {token : List UInt8} {text : String} (spelled : StringToken token text) :
    token ≠ [] := by
  rintro rfl
  cases spelled.head?

theorem encode_inj {text text' : String}
    (same : Utf8.encode text.toList = Utf8.encode text'.toList) : text = text' := by
  have chars := congrArg Utf8.decode same
  rw [Utf8.decode_encode, Utf8.decode_encode, Except.ok.injEq] at chars
  exact String.toList_injective chars

theorem Agrees.ok_iff {text : String} {after : Cursor}
    {result : EStateM.Result Failure Cursor (List UInt8)} {read : EStateM.Result Error Reader String}
    (agrees : Agrees document result read) :
    result = .ok (Utf8.encode text.toList) after ↔ read = .ok text (after.reader document) := by
  cases agrees with
  | ok =>
    constructor
    · intro same
      obtain ⟨bytes, rfl⟩ := EStateM.Result.ok.inj same
      rw [encode_inj bytes]
    · intro same
      obtain ⟨rfl, stands⟩ := EStateM.Result.ok.inj same
      rw [reader_injective stands]
  | error => exact ⟨nofun, nofun⟩

/-- A cursor that is moved on in its document passes what stands between the two places. -/
theorem passes_iff {last : Nat} {token : List UInt8} (inside : before.position < document.length)
    (nonempty : token ≠ []) :
    Reader.Passes (before.reader document) token
        (reader document { before with position := last }) ↔
      last ≤ document.length ∧ document.extract before.position last = token := by
  constructor
  · rintro ⟨unread, offset, -⟩
    have length := congrArg List.length unread
    simp only [reader, List.length_append, List.length_drop] at length offset
    refine ⟨by omega, ?_⟩
    rw [List.extract_eq_take_drop, offset, Nat.add_sub_cancel_left]
    exact (congrArg (List.take token.length) unread).trans List.take_left
  · rintro ⟨bound, rfl⟩
    have positive := List.length_pos_iff.mpr nonempty
    simp only [List.extract_eq_take_drop, List.length_take, List.length_drop] at positive ⊢
    refine ⟨?_, ?_, rfl⟩
    · have rest : document.drop last =
          (document.drop before.position).drop (last - before.position) := by
        rw [List.drop_drop, Nat.add_sub_cancel' (by omega)]
      simp only [reader]
      rw [rest, List.take_append_drop]
    · simp only [reader, List.length_take, List.length_drop]
      omega

/-- Decoding reads the string tokens of the grammar, and gives the text they spell, whatever is in
the buffer. A token without an escape is lent out of the document and leaves the buffer as it was;
any other is lent from the buffer, which then holds its text and nothing else. -/
theorem decodeString_decodes (quote : document[before.position]? = some Ascii.quote)
    (scratch : String) :
    (∀ text last,
      seen document ((decodeString document).run ⟨before, scratch⟩) =
          .ok (Utf8.encode text.toList) { before with position := last } ↔
        last ≤ document.length ∧
          StringToken (document.extract before.position last) text) ∧
      (∀ scratch', seen document ((decodeString document).run ⟨before, scratch⟩) =
        seen document ((decodeString document).run ⟨before, scratch'⟩)) ∧
      Agrees document (seen document ((decodeString document).run ⟨before, scratch⟩))
        (Reader.stringToken.run (before.reader document)) ∧
      ∀ lent after, (decodeString document).run ⟨before, scratch⟩ = .ok lent after →
        ∃ text, Lends document before scratch text after.cursor lent after.scratch := by
  have inside : before.position < document.length := (List.getElem?_eq_some_iff.mp quote).1
  refine ⟨fun text last => ?_, fun scratch' => (seen_agrees quote).unique (seen_agrees quote),
    seen_agrees quote, fun lent after ran => ?_⟩
  · rw [(seen_agrees quote).ok_iff]
    constructor
    · intro read
      obtain ⟨token, spelled, passes⟩ := Reader.stringToken_sound (head?_reader.trans quote) read
      obtain ⟨bound, same⟩ := (passes_iff inside (token_ne_nil spelled)).mp passes
      exact ⟨bound, same ▸ spelled⟩
    · rintro ⟨bound, spelled⟩
      exact Reader.stringToken_complete spelled
        ((passes_iff inside (token_ne_nil spelled)).mpr ⟨bound, rfl⟩)
  · have mirrors := decodeString_mirrors quote scratch
    rw [ran] at mirrors
    generalize (stringToken document).run before = result at mirrors
    cases mirrors with
    | ok lends => exact ⟨_, lends⟩

theorem decodeString_decodes_escape :
    seen [0x5b, 0x22, 0x61, 0x5c, 0x6e, 0x22, 0x5d]
      ((decodeString [0x5b, 0x22, 0x61, 0x5c, 0x6e, 0x22, 0x5d]).run ⟨⟨1, 1⟩, "stale"⟩) =
        .ok (Utf8.encode "a\n".toList) ⟨6, 1⟩ := by
  have plain : Spells (String.utf8EncodeChar 'a') 'a' := .plain ⟨by decide, by decide, by decide⟩
  have escape : Spells [Ascii.backslash, 0x6e] '\n' := .escape (.letter (by decide))
  have token : StringToken [0x22, 0x61, 0x5c, 0x6e, 0x22] "a\n" :=
    .mk (.cons plain (.cons escape .nil))
  exact ((@decodeString_decodes _ ⟨1, 1⟩ (by decide) "stale").1 "a\n" 6).mpr ⟨by decide, token⟩

end TypedJson.Cursor
