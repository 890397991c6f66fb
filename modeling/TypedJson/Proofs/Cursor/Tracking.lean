import TypedJson.Proofs.Cursor.Guarded
import TypedJson.Proofs.Reader.Token

/-! A cursor tracks a reader: from the same place in the document, a guarded step ends as the step
of the reader does, without a breach, and what it ends with is in bounds. This is proved step by
step; whatever is composed of steps that track is then tracked by `Tracks.bind`. -/
namespace TypedJson.Cursor

/-- The reader that stands where a cursor does. -/
def reader (document : List UInt8) (cursor : Cursor) : Reader :=
  ⟨document.drop cursor.position, cursor.position, cursor.depth⟩

/-- A cursor is in its document, and has met a byte for every container open. -/
structure InBounds (document : List UInt8) (cursor : Cursor) : Prop where
  position_le : cursor.position ≤ document.length
  depth_le : cursor.depth ≤ cursor.position

/-- `after` is not before `before`, and in bounds. -/
structure Later (document : List UInt8) (before after : Cursor) : Prop extends
    InBounds document after where
  position_le_position : before.position ≤ after.position

/-- What a guarded step leads to from `before` on is what a reader's step leads to, and in bounds:
no breach, the same value or error and the same place. -/
inductive Tracks {α : Type} (document : List UInt8) (before : Cursor) (post : α → Cursor → Prop) :
    EStateM.Result Failure Cursor α → EStateM.Result Error Reader α → Prop where
  | ok {value : α} {after : Cursor} : Later document before after → post value after →
      Tracks document before post (.ok value after) (.ok value (after.reader document))
  | error {error : Error} {after : Cursor} : Later document before after →
      before.position ≤ error.offset → error.offset ≤ document.length →
        Tracks document before post (.error (.error error) after)
          (.error error (after.reader document))

variable {α β : Type} {document : List UInt8} {before middle after : Cursor}
  {post : α → Cursor → Prop} {post' : β → Cursor → Prop}

theorem InBounds.later (bounds : InBounds document before) : Later document before before :=
  ⟨bounds, Nat.le_refl _⟩

theorem Later.trans (first : Later document before middle) (second : Later document middle after) :
    Later document before after :=
  ⟨second.toInBounds, Nat.le_trans first.position_le_position second.position_le_position⟩

theorem depth_reader : (before.reader document).depth = before.depth := rfl

theorem unread_reader : (before.reader document).unread = document.drop before.position := rfl

theorem reader_advance (document : List UInt8) (before : Cursor) (count : Nat) :
    (before.reader document).advance count =
      reader document { before with position := before.position + count } := by
  simp only [Reader.advance, reader, List.drop_drop]

theorem head?_reader : (before.reader document).unread.head? = document[before.position]? :=
  List.head?_drop

variable {result : EStateM.Result Failure Cursor α} {result' : EStateM.Result Error Reader α}

theorem Tracks.later (tracks : Tracks document middle post result result')
    (first : Later document before middle) : Tracks document before post result result' := by
  cases tracks with
  | ok later holds => exact .ok (first.trans later) holds
  | error later low high =>
    exact .error (first.trans later) (Nat.le_trans first.position_le_position low) high

theorem Tracks.imp {weaker : α → Cursor → Prop}
    (tracks : Tracks document before post result result')
    (implies : ∀ value after, Later document before after → post value after → weaker value after) :
    Tracks document before weaker result result' := by
  cases tracks with
  | ok later holds => exact .ok later (implies _ _ later holds)
  | error later low high => exact .error later low high

section
variable {step : Guarded α} {item : Read α} {k : α → Guarded β} {k' : α → Read β}

/-- What follows a step may still fail at the place where the step began. -/
theorem Tracks.bind_from
    (first : Tracks document before post (step.run before) (item.run (before.reader document)))
    (following : ∀ value middle, Later document before middle → post value middle →
      Tracks document before post' ((k value).run middle)
        ((k' value).run (middle.reader document))) :
    Tracks document before post' ((step >>= k).run before)
      ((item >>= k').run (before.reader document)) := by
  rw [EStateM.run_bind, EStateM.run_bind]
  revert first
  generalize step.run before = result, item.run (before.reader document) = result'
  intro first
  cases first with
  | ok later holds => exact following _ _ later holds
  | error later low high => exact .error later low high

theorem Tracks.bind
    (first : Tracks document before post (step.run before) (item.run (before.reader document)))
    (following : ∀ value middle, Later document before middle → post value middle →
      Tracks document middle post' ((k value).run middle)
        ((k' value).run (middle.reader document))) :
    Tracks document before post' ((step >>= k).run before)
      ((item >>= k').run (before.reader document)) :=
  first.bind_from fun value middle later holds => (following value middle later holds).later later

end

/-! Steps that only check or look are no steps of the reader. -/

theorem run_bind_of_ok {step : Guarded α} {k : α → Guarded β} {value : α}
    (first : step.run before = .ok value middle) :
    (step >>= k).run before = (k value).run middle := by
  rw [EStateM.run_bind, first]

theorem run_get : (get : Guarded Cursor).run before = .ok before before := rfl

theorem run_failAt {offset : Nat} {cause : Cause} {context : Option String} :
    (failAt offset cause context : Guarded α).run before =
      .error (.error ⟨cause, context, offset⟩) before := rfl

theorem require_of {holds : Prop} [Decidable holds] {breach : Breach} (h : holds) :
    (require holds breach).run before = .ok () before := by
  rw [require, if_pos h]
  rfl

theorem slice_of {bytes : List UInt8} {first last : Nat} (ordered : first ≤ last)
    (bound : last ≤ bytes.length) :
    (slice bytes first last).run before = .ok (bytes.extract first last) before := by
  rw [slice, run_bind_of_ok (require_of ⟨ordered, bound⟩)]
  rfl

theorem byteAt_of {bytes : List UInt8} {place : Nat} {byte : UInt8}
    (found : bytes[place]? = some byte) : (byteAt bytes place).run before = .ok byte before := by
  rw [byteAt, found]
  rfl

theorem extract_length (bytes : List UInt8) (first : Nat) :
    bytes.extract first bytes.length = bytes.drop first := by
  rw [List.extract_eq_take_drop, List.take_of_length_le (Nat.le_of_eq List.length_drop)]

theorem remaining_of (bounds : InBounds document before) :
    (remaining document).run before = .ok (before.reader document).unread before := by
  rw [reader, ← extract_length]
  exact slice_of bounds.position_le (Nat.le_refl _)

theorem advance_of {count : Nat} (bound : before.position + count ≤ document.length) :
    (advance document count).run before =
      .ok () { before with position := before.position + count } :=
  run_bind_of_ok (require_of bound)

theorem checkCount_of {count : Nat} (fits : count < IntegerType.usize.count) :
    (checkCount count).run before = .ok () before := require_of fits

/-- The cursor has moved on within the container it was in. -/
def Moves (before : Cursor) (_ : α) (after : Cursor) : Prop :=
  before.position < after.position ∧ after.depth = before.depth

theorem Moves.trans {value : α} {value' : β} (first : Moves before value middle)
    (second : Moves middle value' after) : Moves before value' after :=
  ⟨Nat.lt_trans first.1 second.1, second.2.trans first.2⟩

/-- The cursor stands at a byte, or at the end, in the container it was in. -/
def StandsAt (document : List UInt8) (before : Cursor) (head : Option UInt8) (after : Cursor) :
    Prop :=
  document[after.position]? = head ∧ after.depth = before.depth

theorem moved (bounds : InBounds document before) {position : Nat}
    (forward : before.position ≤ position) (bound : position ≤ document.length) :
    Later document before { before with position } :=
  ⟨⟨bound, Nat.le_trans bounds.depth_le forward⟩, forward⟩

theorem failAt_tracks {offset : Nat} {cause : Cause} {context : Option String}
    (later : Later document before middle) (low : before.position ≤ offset)
    (high : offset ≤ document.length) :
    Tracks document before post ((failAt offset cause context).run middle)
      ((Reader.failAt offset cause context).run (middle.reader document)) :=
  .error later low high

theorem fail_tracks {cause : Cause} (bounds : InBounds document before) :
    Tracks document before post ((fail cause).run before)
      ((Reader.fail cause).run (before.reader document)) :=
  .error bounds.later (Nat.le_refl _) bounds.position_le

theorem pure_tracks {value : α} (bounds : InBounds document before) (holds : post value before) :
    Tracks document before post ((pure value : Guarded α).run before)
      ((pure value : Read α).run (before.reader document)) :=
  .ok bounds.later holds

/-! Tokens -/

theorem peekToken_tracks (bounds : InBounds document before) :
    Tracks document before (StandsAt document before) ((peekToken document).run before)
      (Reader.peekToken.run (before.reader document)) := by
  let space := (before.reader document).unread.takeWhile Ascii.isWhitespace
  have short : space.length ≤ (document.drop before.position).length :=
    (List.takeWhile_prefix _).length_le
  rw [List.length_drop] at short
  have reads : Reader.peekToken.run (before.reader document) =
      .ok document[before.position + space.length]?
        (reader document { before with position := before.position + space.length }) := by
    rw [← reader_advance]
    have head : (reader document { before with
        position := before.position + space.length }).unread.head? = _ := head?_reader
    rw [← reader_advance] at head
    rw [← head]
    rfl
  have bound := bounds.position_le
  have later := moved bounds (Nat.le_add_right _ space.length) (by omega)
  rw [peekToken, run_bind_of_ok (remaining_of bounds), reads]
  exact .ok later ⟨rfl, rfl⟩

theorem peekToken_at {byte : UInt8} (bounds : InBounds document before)
    (head : document[before.position]? = some byte) (token : Ascii.isWhitespace byte = false) :
    (peekToken document).run before = .ok (some byte) before := by
  have space : (before.reader document).unread.takeWhile Ascii.isWhitespace = [] := by
    rw [← head?_reader] at head
    obtain ⟨rest, unread⟩ := List.head?_eq_some_iff.mp head
    rw [unread, List.takeWhile_cons_of_neg (by simp [token])]
  rw [peekToken, run_bind_of_ok (remaining_of bounds), space, ← head]
  rfl

theorem peekToken_end (bounds : InBounds document before)
    (ended : document[before.position]? = none) :
    (peekToken document).run before = .ok none before := by
  have space : (before.reader document).unread.takeWhile Ascii.isWhitespace = [] := by
    rw [← head?_reader, List.head?_eq_none_iff] at ended
    rw [ended, List.takeWhile_nil]
  rw [peekToken, run_bind_of_ok (remaining_of bounds), space, ← ended]
  rfl

theorem expect_tracks {accept : UInt8 → Bool} {expected : SchemaError}
    (bounds : InBounds document before) :
    Tracks document before
      (fun byte after => StandsAt document before (some byte) after ∧ accept byte = true)
      ((expect document accept expected).run before)
      ((Reader.expect accept expected).run (before.reader document)) := by
  apply (peekToken_tracks bounds).bind
  intro head middle later stands
  cases head with
  | none => exact fail_tracks later.toInBounds
  | some byte =>
    dsimp only
    split
    case isTrue accepted => exact pure_tracks later.toInBounds ⟨stands, accepted⟩
    case isFalse =>
      split
      case isTrue => exact fail_tracks later.toInBounds
      case isFalse => exact fail_tracks later.toInBounds

theorem consume_tracks {count : Nat} {step : Guarded Unit} (bounds : InBounds document before)
    (bound : before.position + count ≤ document.length)
    (moves : step.run before = .ok () { before with position := before.position + count }) :
    Tracks document before
      (fun _ after => after = { before with position := before.position + count })
      (step.run before) ((Reader.consume count).run (before.reader document)) := by
  have reads : (Reader.consume count).run (before.reader document) =
      .ok () ((before.reader document).advance count) := rfl
  rw [moves, reads, reader_advance]
  exact .ok (moved bounds (Nat.le_add_right _ _) bound) rfl

theorem literal_tracks {word : String} (bounds : InBounds document before) :
    Tracks document before
      (fun _ after => after.depth = before.depth ∧
        after.position = before.position + (Utf8.encode word.toList).length)
      ((literal document word).run before)
      ((Reader.literal word).run (before.reader document)) := by
  rw [literal, Reader.literal, run_bind_of_ok (remaining_of bounds),
    Reader.run_bind_of_ok Reader.run_get]
  split
  case isTrue found =>
    have short := (List.isPrefixOf_iff_prefix.mp found).length_le
    rw [reader, List.length_drop] at short
    have bound : before.position + (Utf8.encode word.toList).length ≤ document.length := by
      have := bounds.position_le
      omega
    apply (consume_tracks bounds bound (advance_of bound)).imp
    rintro _ _ _ rfl
    exact ⟨rfl, rfl⟩
  case isFalse => exact fail_tracks bounds

end TypedJson.Cursor
