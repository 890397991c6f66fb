import TypedJson.Proofs.Reader.Container

/-! Skipping accepts the values of the grammar and no others. How deep they may nest is settled by
the room left under the limit, which one container takes a level of. -/
namespace TypedJson.Reader
open Grammar

variable {α : Type} {before after inside last : Reader} {text : List UInt8}
  {limit depth count : Nat} {inner : Read Unit} {language : List UInt8 → Prop}

/-- The values one level over those of `language`, if the limit leaves room for a container. -/
def Nested (limit depth : Nat) (language : List UInt8 → Prop) (text : List UInt8) : Prop :=
  Scalar text ∨ depth + 1 < limit ∧ ValueOver language text

/-- The containers that may be open at once over those already open. -/
def room (limit depth : Nat) : Nat := limit - depth - 1

theorem room_zero (full : ¬depth + 1 < limit) : room limit depth = 0 := by
  rw [room]
  omega

theorem room_succ (shallow : depth + 1 < limit) :
    room limit depth = room limit (depth + 1) + 1 := by
  rw [room, room]
  omega

theorem nested_iff :
    Nested limit depth (ValueWithin (room limit (depth + 1))) text ↔
      ValueWithin (room limit depth) text := by
  by_cases shallow : depth + 1 < limit
  · rw [room_succ shallow]
    constructor
    · rintro (scalar | ⟨_, value⟩)
      · exact scalar_within scalar _
      · exact value
    · intro value
      exact .inr ⟨shallow, value⟩
  · rw [room_zero shallow]
    constructor
    · rintro (scalar | ⟨shallow', _⟩)
      · exact scalar
      · contradiction
    · intro scalar
      exact .inl scalar

/-! One level -/

theorem Passes.within (passes : Passes before text after) :
    Passes before.within text after.within := by
  refine ⟨passes.unread, passes.offset, ?_⟩
  rw [Reader.within, Reader.within, passes.depth]

theorem Passes.of_within (passes : Passes inside.within text last) :
    ∃ after, last = after.within ∧ Passes inside text after := by
  obtain ⟨unread, offset, depth⟩ := passes
  refine ⟨⟨last.unread, last.offset, inside.depth⟩, ?_, unread, offset, rfl⟩
  rw [Reader.within, ← show last.depth = inside.depth + 1 from depth]

private theorem forall₂_of_forall : ∀ {texts : List (List UInt8)},
    (∀ text ∈ texts, language text) →
      ∃ values : List Unit, List.Forall₂ (fun _ => language) values texts
  | [], _ => ⟨[], .nil⟩
  | _ :: _, each => by
    obtain ⟨valid, each⟩ := List.forall_mem_cons.mp each
    obtain ⟨values, each⟩ := forall₂_of_forall each
    exact ⟨() :: values, .cons valid each⟩

/-- From an opening bracket on, skipping elements passes over an array. -/
theorem skipElements_sound (sound : depth + 1 < limit → Sound inner (depth + 1) fun _ => language)
    (level : before.depth = depth) (head : before.unread.head? = some Ascii.openBracket)
    (read : (enter limit >>= fun _ => elements inner >>= fun _ => closeArray).run before =
      .ok () after) :
    ∃ body, depth + 1 < limit ∧ ValueOver language (Ascii.openBracket :: body) ∧
      Passes before (Ascii.openBracket :: body) after := by
  obtain ⟨_, opened, enters, read⟩ := run_bind_ok read
  obtain ⟨shallow, inside, bracketPasses, rfl⟩ := (enter_iff head).mp enters
  obtain ⟨values, last, items, closes⟩ := run_bind_ok read
  rw [level] at shallow
  have deeper : inside.within.depth = depth + 1 := by
    rw [Reader.within, bracketPasses.depth, level]
  obtain ⟨texts, body, valids, eachValid, more⟩ := elements_sound (sound shallow) deeper items
  obtain ⟨closed, rfl, bodyPasses⟩ := more.of_within
  obtain ⟨_, rfl⟩ := EStateM.Result.ok.inj closes
  have each : ∀ text ∈ texts, language text := forall_of_forall₂ (fun _ _ valid => valid) eachValid
  exact ⟨body, shallow, .array valids each, bracketPasses.trans bodyPasses⟩

/-- From an opening brace on, looking for a member of no name passes over an object. -/
theorem skipMembers_sound (sound : depth + 1 < limit → Sound inner (depth + 1) fun _ => language)
    (level : before.depth = depth) (head : before.unread.head? = some Ascii.openBrace)
    (read : (enter limit >>= fun _ => get >>= fun reader : Reader =>
      keyWith inner [] reader.unread.length 0 >>= fun _ => closeObject).run before = .ok () after) :
    ∃ body, depth + 1 < limit ∧ ValueOver language (Ascii.openBrace :: body) ∧
      Passes before (Ascii.openBrace :: body) after := by
  obtain ⟨_, opened, enters, read⟩ := run_bind_ok read
  obtain ⟨shallow, inside, bracePasses, rfl⟩ := (enter_iff head).mp enters
  obtain ⟨reader, _, got, read⟩ := run_bind_ok read
  obtain ⟨rfl, rfl⟩ := EStateM.Result.ok.inj got
  obtain ⟨found, last, search, closes⟩ := run_bind_ok read
  rw [level] at shallow
  have deeper : inside.within.depth = depth + 1 := by
    rw [Reader.within, bracePasses.depth, level]
  obtain ⟨passed, first, body, tail, isPassed, ignored, stops, more⟩ :=
    keyWith_sound (sound shallow) deeper search
  obtain ⟨closed, rfl, bodyPasses⟩ := more.of_within
  obtain ⟨_, rfl⟩ := EStateM.Result.ok.inj closes
  cases stops with
  | found _ known => contradiction
  | close isSpace =>
    have valids := isPassed.append_members (.close isSpace)
    rw [List.append_nil] at valids
    have each : ∀ member ∈ passed, language member.2 := by
      intro member skipped
      exact (ignored member skipped).2
    exact ⟨_, shallow, .object valids each, bracePasses.trans bodyPasses⟩

/-- Every kind of value is told by its first byte. -/
theorem skipUsing_sound (sound : depth + 1 < limit → Sound inner (depth + 1) fun _ => language) :
    Sound (skipUsing limit inner) depth fun _ => Nested limit depth language := by
  intro before value after same read
  obtain ⟨head, start, peek, read⟩ := run_bind_ok read
  obtain ⟨space, isSpace, passes, head⟩ := peekToken_sound peek
  have level : start.depth = depth := passes.depth.trans same
  -- whatever the value passes follows the whitespace
  suffices ∃ text, Nested limit depth language text ∧ Passes start text after ∧
      Ends text after.unread by
    obtain ⟨text, valid, token, ends⟩ := this
    exact ⟨space, text, isSpace, valid, passes.trans token, ends⟩
  split at read
  case h_1 => contradiction
  case h_2 byte _ =>
    split at read
    case isTrue bracket =>
      rw [beq_iff_eq.mp bracket] at head
      obtain ⟨body, shallow, valid, token⟩ := skipElements_sound sound level head read
      exact ⟨_, .inr ⟨shallow, valid⟩, token, ends_of_head Ascii.openBracket rfl rfl⟩
    case isFalse =>
    split at read
    case isTrue brace =>
      rw [beq_iff_eq.mp brace] at head
      obtain ⟨body, shallow, valid, token⟩ := skipMembers_sound sound level head read
      exact ⟨_, .inr ⟨shallow, valid⟩, token, ends_of_head Ascii.openBrace rfl rfl⟩
    case isFalse =>
    split at read
    case isTrue quote =>
      obtain ⟨value, last, token, read⟩ := run_bind_ok read
      obtain ⟨rfl, rfl⟩ := EStateM.Result.ok.inj read
      rw [beq_iff_eq.mp quote] at head
      obtain ⟨text, valid, token⟩ := stringToken_sound head token
      exact ⟨text, .inl (.string valid), token, ends_of_head _ valid.head? rfl⟩
    case isFalse =>
    split at read
    case isTrue =>
      exact ⟨_, .inl .true, literal_iff.mp read, ends_of_head Ascii.lowerT rfl rfl⟩
    case isFalse =>
    split at read
    case isTrue =>
      exact ⟨_, .inl .false, literal_iff.mp read, ends_of_head Ascii.lowerF rfl rfl⟩
    case isFalse =>
    split at read
    case isTrue =>
      exact ⟨_, .inl .null, literal_iff.mp read, ends_of_head Ascii.lowerN rfl rfl⟩
    case isFalse =>
    split at read
    case isTrue =>
      obtain ⟨number, last, token, read⟩ := run_bind_ok read
      obtain ⟨rfl, rfl⟩ := EStateM.Result.ok.inj read
      obtain ⟨valid, _, token, ends⟩ := numeral_sound token
      exact ⟨_, .inl (.number valid), token, fun _ => ends⟩
    case isFalse => contradiction

/-- A scalar is skipped whatever is skipped inside containers. -/
theorem skipUsing_scalar : Complete (skipUsing limit inner) depth fun _ => Scalar := by
  rintro before ⟨⟩ after _ ⟨space, text, isSpace, scalar, passes, ends⟩
  obtain ⟨start, first, second⟩ := passes.split
  have peek {byte} (head : text.head? = some byte) (token : Ascii.isWhitespace byte = false) :
      peekToken.run before = .ok (some byte) start := by
    refine peekToken_complete isSpace first ?_ token
    rw [second.unread, List.head?_append, head, Option.some_or]
  cases scalar with
  | true | false | null =>
    rw [skipUsing, run_bind_of_ok (peek rfl rfl)]
    exact literal_iff.mpr second
  | number number =>
    obtain ⟨byte, head, starts, token⟩ := number_begins number
    have other (mark : UInt8) (notNumber : Ascii.startsNumber mark = false) :
        (byte == mark) = false := by
      apply beq_eq_false_iff_ne.mpr
      intro same
      rw [same, notNumber] at starts
      contradiction
    rw [skipUsing, run_bind_of_ok (peek head token)]
    simp only [other Ascii.openBracket rfl, other Ascii.openBrace rfl, other Ascii.quote rfl,
      other Ascii.lowerT rfl, other Ascii.lowerF rfl, other Ascii.lowerN rfl, starts, if_true,
      Bool.false_eq_true, if_false]
    rw [run_bind_of_ok (numeral_complete number second (ends number))]
    rfl
  | string token =>
    rw [skipUsing, run_bind_of_ok (peek token.head? rfl)]
    change (stringToken >>= fun _ => pure ()).run start = _
    rw [run_bind_of_ok (stringToken_complete token second)]
    rfl

theorem skipElements_complete {texts : List (List UInt8)}
    (complete : Complete inner (depth + 1) fun _ => language)
    (starts : ∀ text, language text → Starts text) (level : before.depth = depth)
    (shallow : depth + 1 < limit) (valids : Elements true texts text)
    (each : ∀ element ∈ texts, language element)
    (passes : Passes before (Ascii.openBracket :: text) after) :
    (enter limit >>= fun _ => elements inner >>= fun _ => closeArray).run before =
      .ok () after := by
  rw [← List.singleton_append] at passes
  obtain ⟨inside, bracketPasses, body⟩ := passes.split
  have head : before.unread.head? = some Ascii.openBracket := by rw [bracketPasses.unread]; rfl
  have enters := (enter_iff head).mpr ⟨level.symm ▸ shallow, inside, bracketPasses, rfl⟩
  have deeper : inside.within.depth = depth + 1 := by
    rw [Reader.within, bracketPasses.depth, level]
  obtain ⟨values, eachValid⟩ := forall₂_of_forall each
  have items := elements_complete complete (fun _ => starts) deeper valids eachValid body.within
  rw [run_bind_of_ok enters, run_bind_of_ok items]
  rfl

theorem skipMembers_complete {members : List (String × List UInt8)}
    (complete : Complete inner (depth + 1) fun _ => language) (level : before.depth = depth)
    (shallow : depth + 1 < limit) (valids : Members true members text)
    (each : ∀ member ∈ members, language member.2)
    (passes : Passes before (Ascii.openBrace :: text) after) :
    (enter limit >>= fun _ => get >>= fun reader : Reader =>
      keyWith inner [] reader.unread.length 0 >>= fun _ => closeObject).run before =
        .ok () after := by
  rw [← List.singleton_append] at passes
  obtain ⟨inside, bracePasses, body⟩ := passes.split
  have head : before.unread.head? = some Ascii.openBrace := by rw [bracePasses.unread]; rfl
  have enters := (enter_iff head).mpr ⟨level.symm ▸ shallow, inside, bracePasses, rfl⟩
  have deeper : inside.within.depth = depth + 1 := by
    rw [Reader.within, bracePasses.depth, level]
  have turns : members.length < inside.within.unread.length := by
    have shorter := valids.length_lt
    rw [body.within.unread, List.length_append]
    omega
  rw [← List.append_nil members] at valids
  obtain ⟨last, _, _, rfl, isPassed, ⟨isSpace⟩⟩ := valids.split
  have isFirst : true = ((0 : Nat) == 0) := rfl
  have ignored : ∀ member ∈ members, Ignored [] language member := by
    intro member skipped
    exact ⟨List.idxOf?_nil, each member skipped⟩
  have search := keyWith_complete complete deeper isPassed isFirst ignored (.close isSpace) turns
    body.within
  rw [run_bind_of_ok enters, run_bind_of_ok run_get, run_bind_of_ok search]
  rfl

theorem skipUsing_complete
    (complete : depth + 1 < limit → Complete inner (depth + 1) fun _ => language)
    (starts : ∀ text, language text → Starts text) :
    Complete (skipUsing limit inner) depth fun _ => Nested limit depth language := by
  rintro before ⟨⟩ after same ⟨space, text, isSpace, scalar | ⟨shallow, value⟩, passes, ends⟩
  · exact skipUsing_scalar same ⟨space, text, isSpace, scalar, passes, ends⟩
  cases value with
  | scalar scalar => exact skipUsing_scalar same ⟨space, text, isSpace, scalar, passes, ends⟩
  | array valids each =>
    obtain ⟨start, first, second⟩ := passes.split
    have head : start.unread.head? = some Ascii.openBracket := by rw [second.unread]; rfl
    have level : start.depth = depth := first.depth.trans same
    rw [skipUsing, run_bind_of_ok (peekToken_complete isSpace first head rfl)]
    exact skipElements_complete (complete shallow) starts level shallow valids each second
  | object valids each =>
    obtain ⟨start, first, second⟩ := passes.split
    have head : start.unread.head? = some Ascii.openBrace := by rw [second.unread]; rfl
    have level : start.depth = depth := first.depth.trans same
    rw [skipUsing, run_bind_of_ok (peekToken_complete isSpace first head rfl)]
    exact skipMembers_complete (complete shallow) level shallow valids each second

/-! All levels -/

theorem skipWithin_sound (levels : limit - depth = count) :
    Sound (skipWithin limit count) depth fun _ => ValueWithin (room limit depth) := by
  intro before value after same read
  have nested : Crosses (Nested limit depth (ValueWithin (room limit (depth + 1)))) before after := by
    induction count generalizing depth before value after with
    | zero => exact skipUsing_sound (fun shallow => by omega) same read
    | succ count ih =>
      refine skipUsing_sound (fun shallow => ?_) same read
      intro before value after same read
      exact (ih (by omega) same read).imp fun _ => nested_iff.mp
  exact nested.imp fun _ => nested_iff.mp

theorem skipWithin_complete (levels : limit - depth = count) :
    Complete (skipWithin limit count) depth fun _ => ValueWithin (room limit depth) := by
  intro before value after same crosses
  replace crosses := crosses.imp fun _ => nested_iff.mpr
  induction count generalizing depth before value after with
  | zero =>
    refine skipUsing_complete (fun shallow => ?_) (fun _ => ValueWithin.starts) same crosses
    omega
  | succ count ih =>
    refine skipUsing_complete (fun shallow => ?_) (fun _ => ValueWithin.starts) same crosses
    intro before value after same crosses
    exact ih (by omega) same (crosses.imp fun _ => nested_iff.mpr)

theorem skip_sound : Sound (skip limit) depth fun _ => ValueWithin (room limit depth) := by
  intro before value after same read
  obtain ⟨_, _, got, read⟩ := run_bind_ok read
  obtain ⟨rfl, rfl⟩ := EStateM.Result.ok.inj got
  rw [same] at read
  exact skipWithin_sound rfl same read

theorem skip_complete : Complete (skip limit) depth fun _ => ValueWithin (room limit depth) := by
  intro before value after same crosses
  rw [skip, run_bind_of_ok run_get, same]
  exact skipWithin_complete rfl same crosses

/-! Whole documents -/

/-- Reads a complete document by one step. -/
def readDocument (options : Options) (item : Read α) (document : List UInt8) : Except Error α :=
  let whole : Read α := do
    let value ← item
    finish options
    return value
  match whole.run (ofBytes document) with
  | .ok value _ => .ok value
  | .error error _ => .error error

/-- Skips a complete document. -/
def skipDocument (options : Options) (document : List UInt8) : Except Error Unit :=
  readDocument options (skip options.depthLimit) document

/-- Reading is finished where nothing is open and only whitespace is left. -/
theorem finish_iff {options : Options} (strict : options.allowTrailing = false) :
    (finish options).run before = .ok () after ↔
      before.depth = 0 ∧ ∃ space, Space space ∧ Passes before space after ∧ after.unread = [] := by
  rw [finish, EStateM.run_bind, run_get]
  simp only [strict, Bool.false_eq_true, if_false]
  split
  case isTrue opened => exact ⟨nofun, fun h => absurd h.1 opened⟩
  case isFalse closed =>
    constructor
    · intro read
      obtain ⟨head, last, peek, read⟩ := run_bind_ok read
      obtain ⟨space, isSpace, passes, head⟩ := peekToken_sound peek
      split at read
      case h_1 => contradiction
      case h_2 =>
        obtain ⟨-, rfl⟩ := EStateM.Result.ok.inj read
        exact ⟨not_not.mp closed, space, isSpace, passes, List.head?_eq_none_iff.mp head⟩
    · rintro ⟨_, space, isSpace, passes, ended⟩
      rw [run_bind_of_ok (peekToken_end isSpace passes ended)]
      rfl

/-- More than whitespace may follow if trailing bytes are allowed, so whitespace always may. -/
theorem finish_of_space {options : Options} (closed : before.depth = 0) (space : Space text)
    (passes : Passes before text after) (ended : after.unread = []) :
    ∃ last, (finish options).run before = .ok () last := by
  cases trailing : options.allowTrailing with
  | false => exact ⟨after, (finish_iff trailing).mpr ⟨closed, text, space, passes, ended⟩⟩
  | true =>
    refine ⟨before, ?_⟩
    rw [finish, EStateM.run_bind, run_get]
    simp only [closed, trailing, ne_eq, not_true_eq_false, if_false, if_true]
    rfl

theorem skipDocument_iff {options : Options} : skipDocument options text = .ok () ↔
    ∃ after, (do skip options.depthLimit; finish options).run (ofBytes text) = .ok () after := by
  simp only [skipDocument, readDocument, bind_pure_unit]
  split
  case h_1 last run => exact ⟨fun _ => ⟨last, run⟩, fun _ => rfl⟩
  case h_2 error last run => exact ⟨nofun, fun ⟨_, run'⟩ => by rw [run] at run'; contradiction⟩

/-- What is read of a document stands at its beginning, and whitespace follows, unless more may. -/
theorem readDocument_sound {options : Options} {item : Read α} {value : α}
    {spells : α → List UInt8 → Prop} (sound : Sound item 0 spells)
    (read : readDocument options item text = .ok value) :
    ∃ space token rest, Space space ∧ spells value token ∧ text = space ++ token ++ rest ∧
      Ends token rest ∧ (options.allowTrailing = false → Space rest) := by
  simp only [readDocument] at read
  split at read
  case h_2 => contradiction
  case h_1 found last run =>
    obtain rfl := Except.ok.inj read
    obtain ⟨result, middle, value, run⟩ := run_bind_ok run
    obtain ⟨_, done, finished, run⟩ := run_bind_ok run
    obtain ⟨rfl, _⟩ := EStateM.Result.ok.inj run
    obtain ⟨space, token, isSpace, valid, passes, ends⟩ := sound rfl value
    refine ⟨space, token, middle.unread, isSpace, valid, passes.unread, ends, fun strict => ?_⟩
    obtain ⟨_, back, isSpace', rest, ended⟩ := (finish_iff strict).mp finished
    rwa [rest.unread, ended, List.append_nil]

/-- A document that is read is one of the grammar, up to what is allowed to follow it. -/
theorem document_of_readDocument {options : Options} {item : Read α} {value : α}
    (sound : Sound item 0 fun _ => ValueWithin (room options.depthLimit 0))
    (read : readDocument options item text = .ok value) :
    ∃ front rest, text = front ++ rest ∧ Document (room options.depthLimit 0) front ∧
      (options.allowTrailing = false → rest = []) := by
  obtain ⟨space, token, rest, isSpace, valid, rfl, _, strict⟩ := readDocument_sound sound read
  cases trailing : options.allowTrailing with
  | true =>
    have isDocument := Document.mk isSpace valid .nil
    rw [List.append_nil] at isDocument
    exact ⟨_, rest, rfl, isDocument, Bool.noConfusion⟩
  | false =>
    exact ⟨_, [], (List.append_nil _).symm, .mk isSpace valid (strict trailing), fun _ => rfl⟩

theorem skips_document {levels : Nat} (options : Options) (document : Document levels text)
    (bound : levels = 0 ∨ levels < options.depthLimit) :
    ∃ after, (do skip options.depthLimit; finish options).run (ofBytes text) = .ok () after := by
  obtain @⟨front, text, back, isSpace, valid, isSpace'⟩ := document
  have shallow : levels ≤ room options.depthLimit 0 := by
    rw [room]
    omega
  have whole : Passes (ofBytes (front ++ text ++ back)) (front ++ text ++ back) ⟨[], _, 0⟩ :=
    ⟨(List.append_nil _).symm, rfl, rfl⟩
  obtain ⟨middle, passes, rest⟩ := whole.split
  have ends : Ends text middle.unread := by
    rw [rest.unread, List.append_nil]
    exact ends_of_space isSpace'
  have skipped : (skip options.depthLimit).run _ = .ok () middle :=
    skip_complete rfl ⟨front, text, isSpace, valid.mono shallow, passes, ends⟩
  obtain ⟨last, finished⟩ := finish_of_space passes.depth isSpace' rest rfl
  exact ⟨last, (run_bind_of_ok skipped).trans finished⟩

/-- A document is skipped and finished exactly if it is one value of the grammar that opens no
container, or fewer at once than the limit. -/
theorem skips_document_iff (limit : Nat) (document : List UInt8) :
    (∃ after, (do skip limit; finish ⟨limit, false⟩).run (ofBytes document) = .ok () after) ↔
      ∃ levels, Document levels document ∧ (levels = 0 ∨ levels < limit) := by
  constructor
  · rintro ⟨after, read⟩
    obtain ⟨_, middle, skipped, finished⟩ := run_bind_ok read
    obtain ⟨front, text, isSpace, valid, passes, _⟩ := skip_sound rfl skipped
    obtain ⟨_, back, isSpace', rest, ended⟩ := (finish_iff rfl).mp finished
    have whole := (passes.trans rest).unread
    rw [ended, List.append_nil] at whole
    change document = _ at whole
    refine ⟨room limit 0, whole ▸ .mk isSpace valid isSpace', ?_⟩
    rw [room]
    omega
  · rintro ⟨levels, isDocument, bound⟩
    exact skips_document ⟨limit, false⟩ isDocument bound

end TypedJson.Reader
