import TypedJson.Proofs.Cursor.Token

/-! Cursors track readers over arrays, objects and skipped values. A loop moves with every turn, so
it ends before its turns do, and a count stays below the place where it is counted. -/
namespace TypedJson.Cursor

variable {α : Type} {document : List UInt8} {before : Cursor} {byte : UInt8}
  {limit depth budget turns count : Nat} {names : List String}

theorem position_lt (head : document[before.position]? = some byte) :
    before.position + 1 ≤ document.length :=
  (List.getElem?_eq_some_iff.mp head).1

/-- The bracket is read and the container counted, even if it is one too many. -/
theorem enter_tracks (bounds : InBounds document before)
    (fits : document.length < IntegerType.usize.count)
    (head : document[before.position]? = some byte) :
    Tracks document before
      (fun _ after => after = ⟨before.position + 1, before.depth + 1⟩ ∧ before.depth + 1 < limit)
      ((enter document limit).run before) ((Reader.enter limit).run (before.reader document)) := by
  have inside := position_lt head
  have depth_le := bounds.depth_le
  have later : Later document before ⟨before.position + 1, before.depth + 1⟩ :=
    ⟨⟨inside, Nat.succ_le_succ depth_le⟩, Nat.le_succ _⟩
  have enters : (modify fun reader => { reader.advance 1 with depth := reader.depth + 1 } :
      Read Unit).run (before.reader document) =
        .ok () (reader document ⟨before.position + 1, before.depth + 1⟩) := by
    exact congrArg (fun reader => EStateM.Result.ok () { reader with depth := before.depth + 1 })
      (reader_advance document before 1)
  have counts : (modify fun cursor => { cursor with depth := cursor.depth + 1 } :
      Guarded Unit).run { before with position := before.position + 1 } =
        .ok () ⟨before.position + 1, before.depth + 1⟩ := rfl
  rw [enter, run_bind_of_ok (advance_of inside), run_bind_of_ok run_get,
    run_bind_of_ok (checkCount_of (by dsimp only; omega)), run_bind_of_ok counts,
    run_bind_of_ok run_get, Reader.enter, Reader.run_bind_of_ok enters,
    Reader.run_bind_of_ok Reader.run_get, depth_reader]
  split
  case isTrue => exact (fail_tracks later.toInBounds).later later
  case isFalse shallow => exact .ok later ⟨rfl, Nat.lt_of_not_le shallow⟩

theorem opens_tracks {expected : SchemaError} (bounds : InBounds document before)
    (fits : document.length < IntegerType.usize.count) :
    Tracks document before (fun _ _ => True)
      ((expect document (· == byte) expected >>= fun _ => enter document limit).run before)
      ((Reader.expect (· == byte) expected >>= fun _ => Reader.enter limit).run
        (before.reader document)) :=
  (expect_tracks bounds).bind fun _ _ later stands =>
    (enter_tracks later.toInBounds fits stands.1.1).imp fun _ _ _ _ => trivial

/-- A bracket that was looked at is looked at again before it is read. -/
theorem opens_at {expected : SchemaError} (bounds : InBounds document before)
    (head : document[before.position]? = some byte) (token : Ascii.isWhitespace byte = false) :
    (expect document (· == byte) expected >>= fun _ => enter document limit).run before =
      (enter document limit).run before := by
  rw [expect, bind_assoc, run_bind_of_ok (peekToken_at bounds head token)]
  simp only [beq_self_eq_true, if_true]
  rfl

theorem leave_tracks (bounds : InBounds document before) (opened : 0 < before.depth) :
    Tracks document before (fun _ after => after = { before with depth := before.depth - 1 })
      (leave.run before) (Reader.leave.run (before.reader document)) := by
  have depth_le := bounds.depth_le
  rw [leave, run_bind_of_ok run_get, run_bind_of_ok (require_of opened)]
  exact .ok ⟨⟨bounds.position_le, Nat.le_trans (Nat.sub_le _ _) depth_le⟩, Nat.le_refl _⟩ rfl

theorem advance_tracks (bounds : InBounds document before)
    (head : document[before.position]? = some byte) :
    Tracks document before (Moves before) ((advance document 1).run before)
      ((Reader.consume 1).run (before.reader document)) := by
  apply (consume_tracks bounds (position_lt head) (advance_of (position_lt head))).imp
  rintro _ _ _ rfl
  exact ⟨Nat.lt_succ_self _, rfl⟩

theorem arrayEnds_tracks (bounds : InBounds document before) :
    Tracks document before
      (fun ended after => after.depth = before.depth ∧
        (ended = true → before.position < after.position))
      ((arrayEnds document count).run before)
      ((Reader.arrayEnds count).run (before.reader document)) := by
  apply (peekToken_tracks bounds).bind
  rintro next middle later ⟨head, level⟩
  have forward := later.position_le_position
  cases next with
  | none => exact fail_tracks later.toInBounds
  | some byte =>
    dsimp only
    split
    case isTrue =>
      apply (advance_tracks later.toInBounds head).bind
      rintro _ after later' ⟨moves, level'⟩
      exact pure_tracks later'.toInBounds ⟨level'.trans level, fun _ => by omega⟩
    case isFalse =>
    split
    case isTrue => exact pure_tracks later.toInBounds ⟨level, nofun⟩
    case isFalse =>
    split
    case isTrue =>
      apply (advance_tracks later.toInBounds head).bind
      rintro _ after later' ⟨moves, level'⟩
      exact pure_tracks later'.toInBounds ⟨level'.trans level, nofun⟩
    case isFalse => exact fail_tracks later.toInBounds

/-- A loop with more turns than bytes are left turns once more. -/
theorem exists_succ (bounds : InBounds document before)
    (enough : document.length < before.position + turns) : ∃ more, turns = more + 1 := by
  have bound := bounds.position_le
  exact ⟨turns - 1, by omega⟩

section
variable {item : Guarded α} {item' : Read α}

/-- A step that tracks another wherever `depth` containers are open, and moves within the last. -/
def Follows (document : List UInt8) (depth : Nat) (item : Guarded α) (item' : Read α) : Prop :=
  ∀ ⦃cursor : Cursor⦄, InBounds document cursor → cursor.depth = depth →
    Tracks document cursor (Moves cursor) (item.run cursor) (item'.run (cursor.reader document))

theorem elementsFrom_tracks (follows : Follows document depth item item')
    (fits : document.length < IntegerType.usize.count) (bounds : InBounds document before)
    (level : before.depth = depth) (counted : count ≤ before.position)
    (enough : document.length < before.position + turns)
    (enough' : document.length < before.position + budget) :
    Tracks document before (Moves before) ((elementsFrom document item turns count).run before)
      ((Reader.elementsFrom item' budget count).run (before.reader document)) := by
  induction budget generalizing turns count before with
  | zero =>
    obtain ⟨_, absurd⟩ := exists_succ bounds enough'
    contradiction
  | succ budget ih =>
    obtain ⟨turns, rfl⟩ := exists_succ bounds enough
    apply (arrayEnds_tracks bounds).bind
    rintro ended middle later ⟨level', moves⟩
    have forward := later.position_le_position
    cases ended with
    | true => exact pure_tracks later.toInBounds ⟨moves rfl, level'⟩
    | false =>
      apply (follows later.toInBounds (level'.trans level)).bind
      rintro element after later ⟨moves, level''⟩
      have inside := later.position_le
      rw [run_bind_of_ok (checkCount_of (by omega))]
      have same : after.depth = before.depth := level''.trans level'
      apply (ih later.toInBounds (same.trans level) (by omega) (by omega) (by omega)).bind
      rintro following last later ⟨moves', same'⟩
      exact pure_tracks later.toInBounds ⟨by omega, same'.trans same⟩

end

theorem nameAndColon_tracks (bounds : InBounds document before) :
    Tracks document before (Moves before) ((nameAndColon document).run before)
      (Reader.nameAndColon.run (before.reader document)) := by
  -- what follows a failure never runs
  have refuse {β : Type} {post : β → Cursor → Prop} {cause : Cause} {cursor : Cursor}
      {k : Unit → Guarded β} {k' : Unit → Read β} (bounds : InBounds document cursor) :
      Tracks document cursor post ((fail cause >>= k).run cursor)
        ((Reader.fail cause >>= k').run (cursor.reader document)) :=
    fail_tracks bounds
  apply (peekToken_tracks bounds).bind
  rintro next start later ⟨head, level⟩
  have forward := later.position_le_position
  split
  case isTrue => exact refuse later.toInBounds
  case isFalse quote =>
    rw [Decidable.not_not.mp quote] at head
    apply (stringToken_tracks later.toInBounds head).bind
    rintro name middle later ⟨moves, same⟩
    apply (peekToken_tracks later.toInBounds).bind
    rintro next last later ⟨head, level'⟩
    have forward' := later.position_le_position
    dsimp only
    split
    case isTrue => exact refuse later.toInBounds
    case isFalse colon =>
      rw [Decidable.not_not.mp colon] at head
      rw [run_bind_of_ok run_get]
      apply (consume_tracks later.toInBounds (position_lt head) rfl).bind
      rintro _ _ later rfl
      refine pure_tracks later.toInBounds ⟨?_, level'.trans (same.trans level)⟩
      dsimp only
      omega

theorem memberName_tracks (bounds : InBounds document before)
    (fits : count + document.length < IntegerType.usize.count + before.position) :
    Tracks document before (Moves before) ((memberName document count).run before)
      ((Reader.memberName count).run (before.reader document)) := by
  apply (peekToken_tracks bounds).bind
  rintro next middle later ⟨head, level⟩
  have forward := later.position_le_position
  cases next with
  | none => exact fail_tracks later.toInBounds
  | some byte =>
    have inside := position_lt head
    have named {cursor : Cursor} (later : Later document middle cursor)
        (same : cursor.depth = middle.depth) :
        Tracks document cursor (Moves before)
          ((do checkCount (count + 1); return some (← nameAndColon document)).run cursor)
          ((do return some (← Reader.nameAndColon)).run (cursor.reader document)) := by
      have forward' := later.position_le_position
      rw [run_bind_of_ok (checkCount_of (by omega))]
      apply (nameAndColon_tracks later.toInBounds).bind
      rintro name after later ⟨moves, same'⟩
      exact pure_tracks later.toInBounds ⟨by omega, same'.trans (same.trans level)⟩
    dsimp only
    split
    case isTrue =>
      apply (advance_tracks later.toInBounds head).bind
      rintro _ after later ⟨moves, same⟩
      exact pure_tracks later.toInBounds ⟨by omega, same.trans level⟩
    case isFalse =>
    split
    case isTrue =>
      split
      case isTrue =>
        apply (advance_tracks later.toInBounds head).bind
        rintro _ after later ⟨moves, same⟩
        exact named later same
      case isFalse => exact fail_tracks later.toInBounds
    case isFalse => exact named later.toInBounds.later rfl

theorem keyWith_tracks {skip : Guarded Unit} {skip' : Read Unit}
    (follows : Follows document depth skip skip') (bounds : InBounds document before)
    (level : before.depth = depth)
    (fits : count + document.length < IntegerType.usize.count + before.position)
    (enough : document.length < before.position + turns)
    (enough' : document.length ≤ before.position + budget) :
    Tracks document before (Moves before) ((keyWith document skip names turns count).run before)
      ((Reader.keyWith skip' names budget count).run (before.reader document)) := by
  induction budget generalizing turns count before with
  | zero =>
    -- nothing is left, and the loop that still turns finds that out itself
    obtain ⟨turns, rfl⟩ := exists_succ bounds enough
    have ended : document[before.position]? = none := List.getElem?_eq_none enough'
    rw [keyWith, EStateM.run_bind, memberName, run_bind_of_ok (peekToken_end bounds ended)]
    exact fail_tracks bounds
  | succ budget ih =>
    obtain ⟨turns, rfl⟩ := exists_succ bounds enough
    apply (memberName_tracks bounds fits).bind
    rintro found middle later moves
    cases found with
    | none => exact pure_tracks later.toInBounds moves
    | some name =>
      dsimp only
      cases names.idxOf? name with
      | some index => exact pure_tracks later.toInBounds moves
      | none =>
        apply (follows later.toInBounds (moves.2.trans level)).bind
        rintro _ after later moves'
        obtain ⟨forward, same⟩ := moves.trans moves'
        apply (ih later.toInBounds (same.trans level) (by omega) (by omega) (by omega)).imp
        rintro _ last _ moves''
        exact (moves.trans moves').trans moves''

/-- What was entered and passed over is left where it was entered, further on. -/
theorem leave_tracks_from {β : Type} {value : β} {last : Cursor} (bounds : InBounds document last)
    (moves : Moves ⟨before.position + 1, before.depth + 1⟩ value last) :
    Tracks document last (Moves before) (leave.run last)
      (Reader.leave.run (last.reader document)) := by
  obtain ⟨forward, level⟩ := moves
  apply (leave_tracks bounds (level ▸ Nat.succ_pos _)).imp
  rintro _ _ _ rfl
  exact ⟨Nat.lt_of_succ_lt forward, Nat.sub_eq_of_eq_add level⟩

theorem skipElements_tracks {inner : Guarded Unit} {inner' : Read Unit}
    (fits : document.length < IntegerType.usize.count)
    (follows : depth + 1 < limit → Follows document (depth + 1) inner inner')
    (bounds : InBounds document before) (level : before.depth = depth)
    (head : document[before.position]? = some Ascii.openBracket) :
    Tracks document before (Moves before)
      ((do
        openArray document limit
        let _ ← elementsFrom document inner (document.length + 1) 0
        leave).run before)
      ((do
        Reader.enter limit
        let _ ← Reader.elements inner'
        Reader.closeArray).run (before.reader document)) := by
  rw [EStateM.run_bind, openArray, opens_at bounds head rfl, ← EStateM.run_bind]
  apply (enter_tracks bounds fits head).bind
  rintro _ inside later ⟨rfl, shallow⟩
  subst level
  rw [Reader.elements, bind_assoc, Reader.run_bind_of_ok Reader.run_get, unread_reader,
    List.length_drop]
  have elements := follows shallow
  refine (elementsFrom_tracks elements fits later.toInBounds rfl (Nat.zero_le _) ?_ ?_).bind
    fun _ last later moves => leave_tracks_from later.toInBounds moves
  · omega
  · dsimp only
    omega

theorem skipMembers_tracks {inner : Guarded Unit} {inner' : Read Unit}
    (fits : document.length < IntegerType.usize.count)
    (follows : depth + 1 < limit → Follows document (depth + 1) inner inner')
    (bounds : InBounds document before) (level : before.depth = depth)
    (head : document[before.position]? = some Ascii.openBrace) :
    Tracks document before (Moves before)
      ((do
        openObject document limit
        let _ ← keyWith document inner [] (document.length + 1) 0
        leave).run before)
      ((do
        Reader.enter limit
        let _ ← Reader.keyWith inner' [] (← get).unread.length 0
        Reader.closeObject).run (before.reader document)) := by
  rw [EStateM.run_bind, openObject, opens_at bounds head rfl, ← EStateM.run_bind]
  apply (enter_tracks bounds fits head).bind
  rintro _ inside later ⟨rfl, shallow⟩
  subst level
  rw [Reader.run_bind_of_ok Reader.run_get, unread_reader, List.length_drop]
  refine (keyWith_tracks (follows shallow) later.toInBounds rfl ?_ ?_ ?_).bind
    fun _ last later moves => leave_tracks_from later.toInBounds moves
  · omega
  · omega
  · dsimp only
    omega

/-- One value is skipped if the values inside it are, where the limit lets any be. -/
theorem skipUsing_tracks {inner : Guarded Unit} {inner' : Read Unit}
    (fits : document.length < IntegerType.usize.count)
    (follows : depth + 1 < limit → Follows document (depth + 1) inner inner') :
    Follows document depth (skipUsing document limit inner) (Reader.skipUsing limit inner') := by
  intro before bounds level
  apply (peekToken_tracks bounds).bind
  rintro next start later ⟨head, same⟩
  have level := same.trans level
  have onward {value : Unit} {after : Cursor} (moves : Moves start value after) :
      Moves before value after :=
    ⟨Nat.lt_of_le_of_lt later.position_le_position moves.1, moves.2.trans same⟩
  have word {text : String} (nonempty : 0 < (Utf8.encode text.toList).length) :
      Tracks document start (Moves before) ((literal document text).run start)
        ((Reader.literal text).run (start.reader document)) := by
    apply (literal_tracks later.toInBounds).imp
    rintro _ after _ ⟨level, place⟩
    exact onward ⟨by omega, level⟩
  cases next with
  | none => exact fail_tracks later.toInBounds
  | some byte =>
    dsimp only
    split
    case isTrue bracket =>
      rw [beq_iff_eq.mp bracket] at head
      apply (skipElements_tracks fits follows later.toInBounds level head).imp
      exact fun _ _ _ moves => onward moves
    case isFalse =>
    split
    case isTrue brace =>
      rw [beq_iff_eq.mp brace] at head
      apply (skipMembers_tracks fits follows later.toInBounds level head).imp
      exact fun _ _ _ moves => onward moves
    case isFalse =>
    split
    case isTrue quote =>
      rw [beq_iff_eq.mp quote] at head
      apply (stringToken_tracks later.toInBounds head).bind
      exact fun _ _ later moves => pure_tracks later.toInBounds (onward moves)
    case isFalse =>
    split
    case isTrue => exact word (by decide)
    case isFalse =>
    split
    case isTrue => exact word (by decide)
    case isFalse =>
    split
    case isTrue => exact word (by decide)
    case isFalse =>
    split
    case isTrue =>
      apply (numeral_tracks later.toInBounds).bind
      exact fun _ _ later scanned => pure_tracks later.toInBounds (onward scanned.moves)
    case isFalse => exact fail_tracks later.toInBounds

theorem skipWithin_tracks (fits : document.length < IntegerType.usize.count)
    (levels : limit - depth = count) :
    Follows document depth (skipWithin document limit count) (Reader.skipWithin limit count) := by
  induction count generalizing depth with
  | zero => exact skipUsing_tracks fits fun shallow => by omega
  | succ count ih => exact skipUsing_tracks fits fun shallow => ih (by omega)

theorem skip_tracks (fits : document.length < IntegerType.usize.count) :
    Follows document depth (skip document limit) (Reader.skip limit) := by
  rintro before bounds rfl
  rw [skip, run_bind_of_ok run_get, Reader.skip, Reader.run_bind_of_ok Reader.run_get]
  exact skipWithin_tracks fits rfl bounds rfl

theorem key_tracks (bounds : InBounds document before)
    (fits : count + document.length < IntegerType.usize.count) :
    Tracks document before (Moves before) ((key document limit names count).run before)
      ((Reader.key limit names count).run (before.reader document)) := by
  rw [key, Reader.key, Reader.run_bind_of_ok Reader.run_get, unread_reader, List.length_drop]
  exact keyWith_tracks (skip_tracks (by omega)) bounds rfl (by omega) (by omega) (by omega)

theorem finish_tracks {options : Reader.Options} (bounds : InBounds document before) :
    Tracks document before (fun _ _ => True) ((finish document options).run before)
      ((Reader.finish options).run (before.reader document)) := by
  rw [finish, run_bind_of_ok run_get, Reader.finish, Reader.run_bind_of_ok Reader.run_get,
    depth_reader]
  dsimp only
  split
  case isTrue => exact fail_tracks bounds
  case isFalse =>
  split
  case isTrue => exact pure_tracks bounds trivial
  case isFalse =>
    apply (peekToken_tracks bounds).bind
    intro head after later _
    cases head with
    | some byte => exact fail_tracks later.toInBounds
    | none => exact pure_tracks later.toInBounds trivial

end TypedJson.Cursor
