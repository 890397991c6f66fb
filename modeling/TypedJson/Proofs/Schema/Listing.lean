import TypedJson.Proofs.Reader.Unambiguous
import TypedJson.Proofs.Schema.Membership

/-! Arrays are read as the lists of their elements. The separators are told apart by the number of
elements that the destination holds, so it is shown with the loop that fills one: whatever was in it
is gone, and it keeps in step with the tokens. Where a comma is out of place no list is read. -/
namespace TypedJson

open Grammar Reader

namespace Reader

variable {α β : Type} {before middle after : Reader} {text : List UInt8} {byte : UInt8}
  {depth limit budget count : Nat} {item : Read α} {language : α → List UInt8 → Prop}
  {values : List α} {first : Bool}

/-! Into a destination -/

/-- A reader, and the list that an array is read into. -/
structure Filling (α : Type) where
  reader : Reader
  dest : List α

/-- A step of the reader that leaves the destination alone. -/
def besides (item : Read β) : EStateM Error (Filling α) β := fun state =>
  match item.run state.reader with
  | .ok value reader => .ok value { state with reader }
  | .error error reader => .error error { state with reader }

/-- Reads the elements of an open array after those in the destination, in at most `budget` turns. -/
def fillFrom (item : Read α) : (budget : Nat) → EStateM Error (Filling α) Unit
  | 0 => besides (fail SyntaxError.missingElementSeparator)
  | budget + 1 => do
    if ← besides (arrayEnds (← get).dest.length) then return
    else
      let element ← besides item
      modify fun state => { state with dest := state.dest ++ [element] }
      fillFrom item budget

/-- Reads an array over whatever the destination holds. -/
def fillArray (limit : Nat) (item : Read α) : EStateM Error (Filling α) Unit := do
  besides (openArray limit)
  modify fun state => { state with dest := [] }
  fillFrom item ((← get).reader.unread.length + 1)
  besides closeArray

/-- What filling a destination comes to: the list in it, or the error. -/
def filled : EStateM.Result Error (Filling α) Unit → EStateM.Result Error Reader (List α)
  | .ok _ state => .ok state.dest state.reader
  | .error error state => .error error state.reader

theorem filled_besides {dest : List α} {k : β → EStateM Error (Filling α) Unit} (step : Read β) :
    filled ((besides step >>= k).run ⟨before, dest⟩) =
      match step.run before with
      | .ok value after => filled ((k value).run ⟨after, dest⟩)
      | .error error after => .error error after := by
  have ran : (besides step).run ⟨before, dest⟩ = match step.run before with
    | .ok value after => .ok value ⟨after, dest⟩
    | .error error after => .error error ⟨after, dest⟩ := rfl
  rw [EStateM.run_bind, ran]
  cases step.run before <;> rfl

/-- The destination grows by the elements that are read. -/
theorem filled_fillFrom (dest : List α) :
    filled ((fillFrom item budget).run ⟨before, dest⟩) =
      (elementsFrom item budget dest.length >>= fun values => pure (dest ++ values)).run before := by
  induction budget generalizing before dest with
  | zero => rfl
  | succ budget ih =>
    have got : (get : EStateM Error (Filling α) (Filling α)).run ⟨before, dest⟩ =
      .ok ⟨before, dest⟩ ⟨before, dest⟩ := rfl
    rw [fillFrom, elementsFrom, EStateM.run_bind, got]
    dsimp only
    rw [filled_besides, bind_assoc, EStateM.run_bind]
    cases (arrayEnds dest.length).run before with
    | error => rfl
    | ok ended middle =>
      cases ended with
      | true =>
        change EStateM.Result.ok dest middle = .ok (dest ++ []) middle
        rw [List.append_nil]
      | false =>
        dsimp only
        rw [if_neg Bool.false_ne_true, if_neg Bool.false_ne_true, filled_besides, bind_assoc,
          EStateM.run_bind]
        cases item.run middle with
        | error => rfl
        | ok element next =>
          have pushed : filled ((do
              modify fun state => { state with dest := state.dest ++ [element] }
              fillFrom item budget : EStateM Error (Filling α) Unit).run ⟨next, dest⟩) =
              filled ((fillFrom item budget).run ⟨next, dest ++ [element]⟩) := rfl
          dsimp only
          rw [pushed, ih, List.length_append, List.length_singleton, bind_assoc, EStateM.run_bind,
            EStateM.run_bind]
          cases (elementsFrom item budget (dest.length + 1)).run next with
          | error => rfl
          | ok following last =>
            change EStateM.Result.ok (dest ++ [element] ++ following) last =
              .ok (dest ++ element :: following) last
            rw [List.append_assoc, List.singleton_append]

theorem filled_close (fill : EStateM Error (Filling α) Unit) (state : Filling α) :
    filled ((fill >>= fun _ => besides closeArray).run state) =
      match filled (fill.run state) with
      | .ok values after => .ok values { after with depth := after.depth - 1 }
      | .error error after => .error error after := by
  rw [EStateM.run_bind]
  cases fill.run state <;> rfl

/-- What the destination held is gone. -/
theorem filled_fillArray (dest : List α) :
    filled ((fillArray limit item).run ⟨before, dest⟩) = (readArray limit item).run before := by
  rw [fillArray, filled_besides, readArray, EStateM.run_bind]
  cases (openArray limit).run before with
  | error => rfl
  | ok _ middle =>
    change filled ((fillFrom item (middle.unread.length + 1) >>= fun _ => besides closeArray).run
        ⟨middle, []⟩) =
      (elementsFrom item (middle.unread.length + 1) 0 >>= fun values => do
        closeArray
        return values).run middle
    rw [filled_close, filled_fillFrom, EStateM.run_bind, EStateM.run_bind, List.length_nil]
    cases (elementsFrom item (middle.unread.length + 1) 0).run middle <;> rfl

/-! Commas out of place -/

/-- The rest of an array in which a comma is too many or lacks; `first` says that no element came
before. -/
inductive Misplaced : Bool → List UInt8 → Prop where
  | leading {space rest : List UInt8} : Space space →
      Misplaced true (space ++ Ascii.comma :: rest)
  | doubled {space gap rest : List UInt8} : Space space → Space gap →
      Misplaced false (space ++ Ascii.comma :: (gap ++ Ascii.comma :: rest))
  | trailing {space gap rest : List UInt8} : Space space → Space gap →
      Misplaced false (space ++ Ascii.comma :: (gap ++ Ascii.closeBracket :: rest))
  | missing {space rest : List UInt8} {byte : UInt8} : Space space →
      Ascii.isWhitespace byte = false → byte ≠ Ascii.comma → byte ≠ Ascii.closeBracket →
        Misplaced false (space ++ byte :: rest)
  /-- The commas around an element are in place, but not all after it. -/
  | later {first : Bool} {separator element rest : List UInt8} : Separator first separator →
      IsValue element → Ends element rest → Misplaced false rest →
        Misplaced first (separator ++ element ++ rest)

theorem advance_unread {rest : List UInt8} (unread : before.unread = text ++ rest) :
    (before.advance text.length).unread = rest := by
  rw [Reader.advance, unread, List.drop_left]

theorem peekToken_token {space rest : List UInt8} (isSpace : Space space)
    (token : Ascii.isWhitespace byte = false) (unread : before.unread = space ++ byte :: rest) :
    peekToken.run before = .ok (some byte) (before.advance space.length) := by
  have head : (before.advance space.length).unread.head? = some byte := by
    rw [advance_unread unread]
    rfl
  exact peekToken_complete isSpace (Passes.advance unread) head token

/-- No step reads a value where none starts. -/
theorem Sound.not_ok {value : α} {space rest : List UInt8} (sound : Sound item depth language)
    (values : ∀ value text, language value text → IsValue text) (level : before.depth = depth)
    (isSpace : Space space) (token : Ascii.isWhitespace byte = false)
    (starts : Ascii.startsValue byte = false) (unread : before.unread = space ++ byte :: rest) :
    item.run before ≠ .ok value after := by
  intro read
  obtain ⟨space', text, isSpace', valid, passes, _⟩ := sound level read
  obtain ⟨first, head, startsText⟩ := (values _ _ valid).starts
  obtain ⟨middle, spacePasses, textPasses⟩ := passes.split
  have found : middle.unread.head? = some first := by
    rw [textPasses.unread, List.head?_append, head, Option.some_or]
  have peeked := peekToken_complete isSpace' spacePasses found (startsValue_token startsText)
  rw [peekToken_token isSpace token unread] at peeked
  obtain rfl := Option.some.inj (EStateM.Result.ok.inj peeked).1
  exact Bool.false_ne_true (starts.symm.trans startsText)

/-- After an element the comma is passed, whatever comes next. -/
theorem arrayEnds_comma {space rest : List UInt8} (isSpace : Space space) (more : count ≠ 0)
    (unread : before.unread = space ++ Ascii.comma :: rest) :
    (arrayEnds count).run before = .ok false ((before.advance space.length).advance 1) := by
  rw [arrayEnds, run_bind_of_ok (peekToken_token isSpace rfl unread)]
  dsimp only
  rw [if_neg (by decide), if_neg more, if_pos (beq_self_eq_true _)]
  rfl

theorem elementsFrom_refused (next : (arrayEnds count).run before = .ok false middle)
    (refused : ∀ value last, item.run middle ≠ .ok value last) :
    (elementsFrom item budget count).run before ≠ .ok values after := by
  intro read
  cases budget with
  | zero => contradiction
  | succ budget =>
    rw [elementsFrom, run_bind_of_ok next] at read
    obtain ⟨value, last, element, _⟩ := run_bind_ok read
    exact refused value last element

/-- After an element that ends where a value does, the rest of the array is read from there. -/
theorem elementsFrom_later {separator element rest : List UInt8}
    (sound : Sound item depth language)
    (isValue : ∀ value text, language value text → IsValue text) (level : before.depth = depth)
    (separates : Separator (count == 0) separator) (value : IsValue element)
    (ends : Ends element rest) (unread : before.unread = separator ++ element ++ rest)
    (read : (elementsFrom item budget count).run before = .ok values after) :
    ∃ budget following last, (elementsFrom item budget (count + 1)).run
      (before.advance (separator ++ element).length) = .ok following last := by
  cases budget with
  | zero => contradiction
  | succ budget =>
    have passes := Passes.advance unread
    obtain ⟨middle, space, next, isSpace, elementPasses⟩ :=
      arrayEnds_next separates value.starts passes
    rw [elementsFrom, run_bind_of_ok next] at read
    obtain ⟨found, between, foundRead, read⟩ := run_bind_ok read
    obtain ⟨following, last, others, _⟩ := run_bind_ok read
    have inside : middle.depth = depth :=
      elementPasses.depth.symm.trans (passes.depth.trans level)
    obtain ⟨space', text, isSpace', valid, textPasses, textEnds⟩ := sound inside foundRead
    rw [← advance_unread unread] at ends
    -- the element is all that was read of it, so the reader is at its end
    obtain ⟨rfl, rfl⟩ := value_unique isSpace value elementPasses ends isSpace'
      (isValue _ _ valid) textPasses textEnds
    exact ⟨budget, following, last, others⟩

theorem elementsFrom_misplaced (sound : Sound item depth language)
    (isValue : ∀ value text, language value text → IsValue text) (misplaced : Misplaced first text)
    (isFirst : first = (count == 0)) (level : before.depth = depth) (unread : before.unread = text) :
    (elementsFrom item budget count).run before ≠ .ok values after := by
  induction misplaced generalizing before after count budget values with
  | @leading space rest isSpace =>
    have next : (arrayEnds count).run before = .ok false (before.advance space.length) := by
      rw [arrayEnds, run_bind_of_ok (peekToken_token isSpace rfl unread)]
      dsimp only
      rw [if_neg (by decide), if_pos (beq_iff_eq.mp isFirst.symm)]
      rfl
    exact elementsFrom_refused next fun _ _ =>
      sound.not_ok isValue level .nil rfl rfl (advance_unread unread)
  | doubled isSpace isGap =>
    have next := arrayEnds_comma isSpace (beq_eq_false_iff_ne.mp isFirst.symm) unread
    exact elementsFrom_refused next fun _ _ =>
      sound.not_ok isValue level isGap rfl rfl (@advance_unread _ [_] _ (advance_unread unread))
  | trailing isSpace isGap =>
    have next := arrayEnds_comma isSpace (beq_eq_false_iff_ne.mp isFirst.symm) unread
    exact elementsFrom_refused next fun _ _ =>
      sound.not_ok isValue level isGap rfl rfl (@advance_unread _ [_] _ (advance_unread unread))
  | @missing space rest byte isSpace token notComma notBracket =>
    have next : (arrayEnds count).run before =
        .error ⟨SyntaxError.missingElementSeparator, none, before.offset + space.length⟩
          (before.advance space.length) := by
      rw [arrayEnds, run_bind_of_ok (peekToken_token isSpace token unread)]
      dsimp only
      rw [if_neg (by simpa using notBracket), if_neg (beq_eq_false_iff_ne.mp isFirst.symm),
        if_neg (by simpa using notComma)]
      rfl
    intro read
    cases budget with
    | zero => contradiction
    | succ budget =>
      rw [elementsFrom, EStateM.run_bind, next] at read
      contradiction
  | @later first separator element rest separates value ends misplaced ih =>
    intro read
    obtain ⟨budget, following, last, others⟩ :=
      elementsFrom_later sound isValue level (isFirst ▸ separates) value ends unread read
    exact ih rfl ((Passes.advance unread).depth.trans level) (advance_unread unread) others

theorem readArray_misplaced {space body : List UInt8}
    (sound : Sound item (before.depth + 1) language)
    (isValue : ∀ value text, language value text → IsValue text) (isSpace : Space space)
    (unread : before.unread = space ++ Ascii.openBracket :: body) (misplaced : Misplaced true body) :
    (readArray limit item).run before ≠ .ok values after := by
  intro read
  obtain ⟨_, opened, opens, read⟩ := run_bind_ok read
  obtain ⟨values', _, items, _⟩ := run_bind_ok read
  obtain ⟨_, _, got, items⟩ := run_bind_ok items
  obtain ⟨rfl, rfl⟩ := EStateM.Result.ok.inj got
  obtain ⟨shallow, _⟩ := opens_sound opens
  have passes : Passes before (space ++ [Ascii.openBracket]) _ :=
    Passes.advance (unread.trans (List.append_cons ..))
  have enters : (openArray limit).run before = .ok () _ := opens_complete shallow isSpace passes rfl
  rw [enters] at opens
  obtain rfl := (EStateM.Result.ok.inj opens).2
  have rest : (before.advance (space ++ [Ascii.openBracket]).length).within.unread = body :=
    advance_unread (unread.trans (List.append_cons ..))
  exact elementsFrom_misplaced sound isValue misplaced rfl rfl rest items

end Reader

/-- A list is read exactly from an array within the limit whose elements, in their order, are read as
the list's one level deeper; whitespace may stand between all tokens. It replaces whatever the
destination held, which is counted to tell the separators apart. An array in which a comma leads,
trails, is doubled or lacks is refused. -/
theorem Schema.array_lists (element : Schema) (limit : Nat) (target : (Schema.array element).Value)
    (before : Reader) :
    (∀ values after, ((Schema.array element).readInto limit target).run before = .ok values after ↔
      before.depth + 1 < limit ∧ ∃ space texts body, Space space ∧ Elements true texts body ∧
        Passes before (space ++ Ascii.openBracket :: body) after ∧
          List.Forall₂ (fun value text => IsValue text ∧
            Accepts (element.read limit) (before.depth + 1) value text) values texts) ∧
    (∀ dest, filled ((fillArray limit (element.read limit)).run ⟨before, dest⟩) =
      ((Schema.array element).readInto limit target).run before) ∧
    ∀ space body, Space space → before.unread = space ++ Ascii.openBracket :: body →
      Misplaced true body →
        ∃ error after, ((Schema.array element).readInto limit target).run before =
          .error error after := by
  have isValue (levels : Nat) (value : element.Value) (text : List UInt8)
      (spelled : element.Spells levels value text) : IsValue text :=
    ⟨levels, Schema.Spells.within element value text spelled⟩
  refine ⟨fun values after => ?_, fun dest => filled_fillArray dest,
    fun space body isSpace unread misplaced => ?_⟩
  · constructor
    · intro read
      obtain ⟨space, _, isSpace, ⟨inside, opens, texts, body, rfl, valids, each⟩, passes, _⟩ :=
        (Schema.array element).readInto_sound limit before.depth target rfl read
      obtain ⟨shallow, rfl⟩ := room_eq_succ opens
      refine ⟨shallow, space, texts, body, isSpace, valids, passes, each.imp ?_⟩
      intro value text spelled
      exact ⟨isValue _ value text spelled,
        (Schema.accepts_read_iff (isValue _ value text spelled)).mpr spelled⟩
    · rintro ⟨shallow, space, texts, body, isSpace, valids, passes, each⟩
      refine (Schema.array element).readInto_complete limit before.depth target rfl
        ⟨space, _, isSpace, ⟨_, room_succ shallow, texts, body, rfl, valids, each.imp ?_⟩, passes,
          ends_of_head Ascii.openBracket rfl rfl⟩
      rintro value text ⟨isText, accepted⟩
      exact (Schema.accepts_read_iff isText).mp accepted
  · have refused (values : List element.Value) (after : Reader) :
        (readArray limit (element.read limit)).run before ≠ .ok values after :=
      readArray_misplaced (element.readInto_sound limit _ element.default) (isValue _) isSpace unread
        misplaced
    change ∃ error after, (readArray limit (element.read limit)).run before = .error error after
    cases read : (readArray limit (element.read limit)).run before with
    | ok values after => exact absurd read (refused values after)
    | error error after => exact ⟨error, after, rfl⟩

/-- A list replaces what the destination held; with a comma before the bracket there is none. -/
theorem Schema.array_lists_booleans :
    filled ((fillArray 3 (Schema.boolean.read 3)).run
        ⟨ofBytes (Utf8.encode "[true , false]".toList), [false]⟩) =
      .ok [true, false] ⟨[], 14, 0⟩ ∧
    ∃ error after, ((Schema.array .boolean).readInto 3 []).run
      (ofBytes (Utf8.encode "[true,]".toList)) = .error error after := by
  have blank : Space [0x20] := List.forall_mem_singleton.mpr rfl
  have yes : IsValue (booleanText true) := ⟨0, .true⟩
  have no : IsValue (booleanText false) := ⟨0, .false⟩
  constructor
  · obtain ⟨lists, fills, _⟩ := Schema.array_lists .boolean 3 []
      (ofBytes (Utf8.encode "[true , false]".toList))
    rw [fills [false], lists]
    refine ⟨by decide, [], [booleanText true, booleanText false],
      Utf8.encode "true , false]".toList, .nil, ?_, ⟨rfl, rfl, rfl⟩, ?_⟩
    · exact .cons (.first .nil) (.cons (.next blank blank) (.close .nil))
    · exact .cons ⟨yes, _, rfl⟩ (.cons ⟨no, _, rfl⟩ .nil)
  · obtain ⟨_, _, refuses⟩ := Schema.array_lists .boolean 3 []
      (ofBytes (Utf8.encode "[true,]".toList))
    have ends : Ends (booleanText true) (Utf8.encode ",]".toList) :=
      ends_of_closes fun byte head => by cases head; rfl
    have misplaced : Misplaced true ([] ++ booleanText true ++ Utf8.encode ",]".toList) :=
      .later (.first .nil) yes ends (.trailing .nil .nil)
    exact refuses [] _ .nil rfl misplaced

end TypedJson
