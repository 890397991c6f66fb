import TypedJson.Proofs.Reader.Record
import TypedJson.Proofs.Reader.Unambiguous

/-! What can still go wrong where a value of the grammar stands. Typed reading goes over the same
tokens as skipping until they are not what it asks for. So it comes out at the end of the value, or
it fails for what the schema says, or for a number that no binary64 can hold. -/
namespace TypedJson.Reader
open Grammar

/-- Why a value is refused although it is one of the grammar: for the schema, but not for its depth,
or for a number that is read as a binary64 and rounds to none. The texts of `lead` lead to such
numbers. -/
inductive Mismatch (lead : List UInt8 → Prop) (start : Reader) : Error → Prop where
  | schema {cause : SchemaError} : cause ≠ .tooDeep →
      Mismatch lead start ⟨cause, context, place⟩
  | overflow : lead front → start.unread = front ++ (number ++ rest) → Number number →
      EndsNumber number rest →
      (Numeral.toBinary64 ⟨number, isIntegral number⟩).isFinite = false →
      Mismatch lead start ⟨SyntaxError.numberTooBig, none, start.offset + front.length⟩

/-- A run comes out at the end of the value, or fails for a mismatch. -/
def Settles (lead : List UInt8 → Prop) (start after : Reader) :
    EStateM.Result Error Reader α → Prop
  | .ok _ last => last = after
  | .error error _ => Mismatch lead start error

/-- The texts that lead from between the elements of an array into one of them, and there are of
`lead`. -/
inductive ToElement (lead : List UInt8 → Prop) : Bool → List UInt8 → Prop where
  | here : Separator first separator → lead text → ToElement lead first (separator ++ text)
  | next : Separator first separator → IsValue element → ToElement lead false text →
      ToElement lead first (separator ++ element ++ text)

/-- The texts that lead from between the members of an object to a value in it, and there are of
`lead` for its name. -/
inductive ToMember (lead : String → List UInt8 → Prop) : Bool → List UInt8 → Prop where
  | here : Heading first name heading → lead name text → ToMember lead first (heading ++ text)
  | next : Heading first name heading → Space space → IsValue value → ToMember lead false text →
      ToMember lead first (heading ++ space ++ value ++ text)

variable {α β ρ : Type} {start before middle after : Reader} {byte : UInt8} {error : Error}
  {text front space : List UInt8} {expected : SchemaError} {accept : UInt8 → Bool}
  {limit depth count budget levels : Nat} {lead lead' : List UInt8 → Prop} {item : Read α}
  {result : EStateM.Result Error Reader α} {first last : Bool} {texts : List (List UInt8)}
  {members passed : List (String × List UInt8)} {names : List String}

/-- Wherever a value within the limit stands, a step settles at its end. -/
def SettlesAt (limit depth : Nat) (lead : List UInt8 → Prop) (item : Read α) : Prop :=
  ∀ ⦃before after⦄, before.depth = depth →
    Crosses (ValueWithin (room limit depth)) before after →
      Settles lead before after (item.run before)

theorem Mismatch.later (mismatch : Mismatch lead' middle error)
    (unread : start.unread = front ++ middle.unread)
    (offset : middle.offset = start.offset + front.length)
    (weaker : ∀ text, lead' text → lead (front ++ text)) : Mismatch lead start error := by
  cases mismatch with
  | schema differs => exact .schema differs
  | @overflow text number rest leads more valid ends infinite =>
    have whole : start.unread = (front ++ text) ++ (number ++ rest) := by
      rw [unread, more, List.append_assoc]
    have place : middle.offset + text.length = start.offset + (front ++ text).length := by
      rw [offset, List.length_append, Nat.add_assoc]
    exact place ▸ .overflow (weaker text leads) whole valid ends infinite

theorem Settles.later (settles : Settles lead' middle after result)
    (unread : start.unread = front ++ middle.unread)
    (offset : middle.offset = start.offset + front.length)
    (weaker : ∀ text, lead' text → lead (front ++ text)) : Settles lead start after result := by
  cases result with
  | ok value last => exact settles
  | error error last => exact Mismatch.later settles unread offset weaker

theorem Settles.bind {k : α → Read β} (settles : Settles lead start middle (item.run before))
    (following : ∀ value, item.run before = .ok value middle →
      Settles lead start after ((k value).run middle)) :
    Settles lead start after ((item >>= k).run before) := by
  rw [EStateM.run_bind]
  cases run : item.run before with
  | error error last =>
    rw [run] at settles
    exact settles
  | ok value last =>
    rw [run] at settles
    obtain rfl : last = middle := settles
    exact following value run

/-! The kind of a value is told by its first byte -/

theorem scalar_of_head (value : ValueWithin levels text) (head : text.head? = some byte)
    (bracket : byte ≠ Ascii.openBracket) (brace : byte ≠ Ascii.openBrace) : Scalar text := by
  cases levels with
  | zero => exact value
  | succ levels =>
    cases value with
    | scalar scalar => exact scalar
    | array => exact absurd (Option.some.inj head).symm bracket
    | object => exact absurd (Option.some.inj head).symm brace

/-- A scalar by its first byte. -/
theorem scalar_kind (scalar : Scalar text) (head : text.head? = some byte) :
    (byte = Ascii.lowerT ∨ byte = Ascii.lowerF) ∧ (∃ value, text = booleanText value) ∨
      byte = Ascii.lowerN ∨ Ascii.startsNumber byte = true ∧ Number text ∨
        byte = Ascii.quote ∧ ∃ spelled, Grammar.StringToken text spelled := by
  cases scalar with
  | true => exact .inl ⟨.inl (Option.some.inj head).symm, true, rfl⟩
  | false => exact .inl ⟨.inr (Option.some.inj head).symm, false, rfl⟩
  | null => exact .inr (.inl (Option.some.inj head).symm)
  | number number =>
    obtain ⟨first, same, starts⟩ := number_starts number
    obtain rfl := Option.some.inj (head.symm.trans same)
    exact .inr (.inr (.inl ⟨starts, number⟩))
  | string token =>
    obtain rfl := Option.some.inj (head.symm.trans token.head?)
    exact .inr (.inr (.inr ⟨rfl, _, token⟩))

theorem not_opens_of_scalar (scalar : Scalar text) (head : text.head? = some byte) :
    byte ≠ Ascii.openBracket ∧ byte ≠ Ascii.openBrace := by
  rcases scalar_kind scalar head with ⟨rfl | rfl, _⟩ | rfl | ⟨starts, _⟩ | ⟨rfl, _⟩
  case inr.inr.inl =>
    constructor
    · rintro rfl
      contradiction
    · rintro rfl
      contradiction
  all_goals decide

theorem number_of_head (value : ValueWithin levels text) (head : text.head? = some byte)
    (starts : Ascii.startsNumber byte = true) : Number text := by
  have other (mark : UInt8) (notNumber : Ascii.startsNumber mark = false) : byte ≠ mark := by
    rintro rfl
    simp [notNumber] at starts
  have scalar := scalar_of_head value head (other _ rfl) (other _ rfl)
  rcases scalar_kind scalar head with ⟨same | same, _⟩ | same | ⟨_, number⟩ | ⟨same, _⟩
  case inr.inr.inl => exact number
  all_goals exact absurd same (other _ rfl)

theorem string_of_head (value : ValueWithin levels text) (head : text.head? = some Ascii.quote) :
    ∃ spelled, Grammar.StringToken text spelled := by
  have scalar := scalar_of_head value head (by decide) (by decide)
  rcases scalar_kind scalar head with ⟨same | same, _⟩ | same | ⟨starts, _⟩ | ⟨_, token⟩
  case inr.inr.inr => exact token
  all_goals contradiction

theorem boolean_of_head (value : ValueWithin levels text) (head : text.head? = some byte)
    (begins : byte = Ascii.lowerT ∨ byte = Ascii.lowerF) : ∃ value, text = booleanText value := by
  have scalar : Scalar text := by
    rcases begins with rfl | rfl
    · exact scalar_of_head value head (by decide) (by decide)
    · exact scalar_of_head value head (by decide) (by decide)
  rcases scalar_kind scalar head with ⟨_, spelled⟩ | rfl | ⟨starts, _⟩ | ⟨rfl, _⟩
  case inl => exact spelled
  case inr.inr.inl =>
    rcases begins with rfl | rfl
    · contradiction
    · contradiction
  all_goals exact absurd begins (by decide)

theorem elements_of_head {language : List UInt8 → Prop} (value : Nested limit depth language text)
    (head : text.head? = some Ascii.openBracket) :
    depth + 1 < limit ∧ ∃ texts body, text = Ascii.openBracket :: body ∧
      Elements true texts body ∧ ∀ element ∈ texts, language element := by
  rcases value with scalar | ⟨shallow, scalar | ⟨valids, each⟩ | _⟩
  · exact absurd rfl (not_opens_of_scalar scalar head).1
  · exact absurd rfl (not_opens_of_scalar scalar head).1
  · exact ⟨shallow, _, _, rfl, valids, each⟩
  · exact absurd (Option.some.inj head) (by decide)

theorem members_of_head {language : List UInt8 → Prop} (value : Nested limit depth language text)
    (head : text.head? = some Ascii.openBrace) :
    depth + 1 < limit ∧ ∃ members body, text = Ascii.openBrace :: body ∧
      Members true members body ∧ ∀ member ∈ members, language member.2 := by
  rcases value with scalar | ⟨shallow, scalar | _ | ⟨valids, each⟩⟩
  · exact absurd rfl (not_opens_of_scalar scalar head).2
  · exact absurd rfl (not_opens_of_scalar scalar head).2
  · exact absurd (Option.some.inj head) (by decide)
  · exact ⟨shallow, _, _, rfl, valids, each⟩

/-! Scalars -/

theorem expect_refuses (isSpace : Space space) (passes : Passes before space after)
    (head : after.unread.head? = some byte) (starts : Ascii.startsValue byte = true)
    (refused : accept byte = false) :
    (expect accept expected).run before = .error (after.error expected) after := by
  have token := startsValue_token starts
  rw [expect, run_bind_of_ok (peekToken_complete isSpace passes head token)]
  simp only [refused, starts, if_true, Bool.false_eq_true, if_false]
  rfl

/-- A step that asks for a kind of token refuses values of another kind for the schema. -/
theorem token_settles {k : UInt8 → Read α} (differs : expected ≠ .tooDeep)
    (crosses : Crosses (ValueWithin levels) before after)
    (settles : ∀ ⦃space text byte middle⦄, Space space → Passes before space middle →
      ValueWithin levels text → Passes middle text after → Ends text after.unread →
        text.head? = some byte → accept byte = true →
          Settles lead before after ((k byte).run middle)) :
    Settles lead before after ((expect accept expected >>= k).run before) := by
  obtain ⟨space, text, isSpace, value, passes, ends⟩ := crosses
  obtain ⟨byte, head, starts⟩ := value.starts
  obtain ⟨middle, spacePasses, textPasses⟩ := passes.split
  have unread : middle.unread.head? = some byte := by simp [textPasses.unread, head]
  cases accepted : accept byte with
  | true =>
    have token := startsValue_token starts
    rw [run_bind_of_ok (expect_complete isSpace spacePasses unread token accepted)]
    exact settles isSpace spacePasses value textPasses ends head accepted
  | false =>
    rw [EStateM.run_bind, expect_refuses isSpace spacePasses unread starts accepted]
    exact .schema differs

theorem boolean_settles : SettlesAt limit depth lead boolean := by
  intro before after level crosses
  refine token_settles (by decide) crosses ?_
  intro space text byte middle isSpace spacePasses value passes ends head accepted
  obtain ⟨spelled, rfl⟩ := boolean_of_head value head (by simpa using accepted)
  cases spelled with
  | true =>
    obtain rfl := Option.some.inj head
    have word : (literal "true").run middle = .ok () after := literal_iff.mpr passes
    change Settles lead before after ((literal "true" >>= fun _ => pure true).run middle)
    rw [run_bind_of_ok word]
    exact rfl
  | false =>
    obtain rfl := Option.some.inj head
    have word : (literal "false").run middle = .ok () after := literal_iff.mpr passes
    change Settles lead before after ((literal "false" >>= fun _ => pure false).run middle)
    rw [run_bind_of_ok word]
    exact rfl

theorem integer_settles (type : IntegerType) : SettlesAt limit depth lead (integer type) := by
  intro before after level crosses
  have differs : (if type.signed then SchemaError.integer else .unsignedInteger) ≠ .tooDeep := by
    split <;> decide
  refine token_settles differs crosses ?_
  intro space text byte middle isSpace spacePasses value passes ends head accepted
  have number := number_of_head value head accepted
  rw [run_bind_of_ok run_get, run_bind_of_ok (numeral_complete number passes (ends number))]
  dsimp only
  split
  case isFalse => exact .schema differs
  case isTrue =>
    split
    case isFalse => exact .schema (by decide)
    case isTrue =>
      split
      case isFalse => exact .schema (by decide)
      case isTrue => exact rfl

/-- A number that is refused starts right here. -/
theorem real_settles (leads : ∀ space, Space space → lead space) :
    SettlesAt limit depth lead real := by
  intro before after level crosses
  refine token_settles (by decide) crosses ?_
  intro space text byte middle isSpace spacePasses value passes ends head accepted
  have number := number_of_head value head accepted
  rw [run_bind_of_ok run_get, run_bind_of_ok (numeral_complete number passes (ends number))]
  dsimp only
  split
  case isTrue => exact rfl
  case isFalse infinite =>
    have whole : before.unread = space ++ (text ++ after.unread) := by
      rw [spacePasses.unread, passes.unread]
    have mismatch := Mismatch.overflow (leads space isSpace) whole number (ends number)
      (Bool.eq_false_iff.mpr infinite)
    rwa [← spacePasses.offset] at mismatch

theorem string_settles : SettlesAt limit depth lead string := by
  intro before after level crosses
  refine token_settles (by decide) crosses ?_
  intro space text byte middle isSpace spacePasses value passes ends head accepted
  rw [beq_iff_eq.mp accepted] at head
  obtain ⟨spelled, token⟩ := string_of_head value head
  rw [stringToken_complete token passes]
  exact rfl

/-- A string token that is then looked at settles if the look does. -/
theorem spelled_settles {k : String → Reader → Read α} (differs : expected ≠ .tooDeep)
    (settles : ∀ text place start after, Settles lead start after ((k text place).run after)) :
    SettlesAt limit depth lead (expect (· == Ascii.quote) expected >>= fun _ => get >>= fun place =>
      stringToken >>= fun text => k text place) := by
  intro before after level crosses
  refine token_settles differs crosses ?_
  intro space text byte middle isSpace spacePasses value passes ends head accepted
  rw [beq_iff_eq.mp accepted] at head
  obtain ⟨spelled, token⟩ := string_of_head value head
  rw [run_bind_of_ok run_get, run_bind_of_ok (stringToken_complete token passes)]
  exact settles spelled middle before after

theorem binary_settles (width : Nat) : SettlesAt limit depth lead (binary width) := by
  apply spelled_settles (by decide)
  intro text place start after
  split
  case h_1 => exact rfl
  case h_2 => exact .schema (by decide)

theorem enumeration_settles (names : List String) :
    SettlesAt limit depth lead (enumeration names) := by
  apply spelled_settles (by decide)
  intro text place start after
  split
  case h_1 => exact rfl
  case h_2 => exact .schema (by decide)

/-! Containers -/

/-- The texts that lead into a container, and there are of `inside`. -/
def Into (bracket : UInt8) (inside : List UInt8 → Prop) (text : List UInt8) : Prop :=
  ∃ space body, text = space ++ bracket :: body ∧ Space space ∧ inside body

theorem opens_settles {k : Unit → Read α} {inside : List UInt8 → Prop}
    (differs : expected ≠ .tooDeep) (level : before.depth = depth)
    (crosses : Crosses (ValueWithin (room limit depth)) before after)
    (settles : ∀ ⦃text⦄, Nested limit depth (ValueWithin (room limit (depth + 1))) text →
      text.head? = some byte → depth + 1 < limit ∧ ∃ body, text = byte :: body ∧
        ∀ ⦃opened⦄, opened.depth = depth + 1 → Passes opened body after.within →
          Settles inside opened after ((k ()).run opened)) :
    Settles (Into byte inside) before after
      (((expect (· == byte) expected >>= fun _ => enter limit) >>= k).run before) := by
  rw [bind_assoc]
  refine token_settles differs crosses ?_
  intro space text found middle isSpace spacePasses value passes _ head accepted
  rw [beq_iff_eq.mp accepted] at head
  obtain ⟨shallow, body, rfl, settles⟩ := settles (nested_iff.mpr value) head
  rw [← List.singleton_append] at passes
  obtain ⟨opened, bracketPasses, bodyPasses⟩ := passes.split
  have unread : middle.unread.head? = some byte := by rw [bracketPasses.unread]; rfl
  have atBracket : middle.depth = depth := spacePasses.depth.trans level
  have enters : (enter limit).run middle = .ok () opened.within :=
    (enter_iff unread).mpr ⟨atBracket.symm ▸ shallow, opened, bracketPasses, rfl⟩
  have deeper : opened.within.depth = depth + 1 := by
    rw [Reader.within, bracketPasses.depth, atBracket]
  have whole := spacePasses.trans bracketPasses
  rw [run_bind_of_ok enters]
  refine (settles deeper bodyPasses.within).later whole.unread whole.offset fun text leads => ?_
  exact ⟨space, text, by simp, isSpace, leads⟩

theorem elementsFrom_settles (settles : SettlesAt limit depth lead item)
    (level : before.depth = depth) (valids : Elements first texts text)
    (each : ∀ element ∈ texts, ValueWithin (room limit depth) element)
    (isFirst : first = (count == 0)) (turns : texts.length < budget)
    (passes : Passes before text after) :
    Settles (ToElement lead first) before after
      ((elementsFrom item budget count).run before) := by
  obtain ⟨budget, rfl⟩ : ∃ n, budget = n + 1 := ⟨budget - 1, by omega⟩
  induction valids generalizing before count budget with
  | close isSpace =>
    rw [elementsFrom, run_bind_of_ok (arrayEnds_close isSpace passes)]
    exact rfl
  | @cons first separator texts rest element separates valids ih =>
    obtain ⟨value, others⟩ := List.forall_mem_cons.mp each
    obtain ⟨budget, rfl⟩ : ∃ n, budget = n + 1 := ⟨budget - 1, by simp at turns; omega⟩
    obtain ⟨between, passes, more⟩ := passes.split
    obtain ⟨middle, space, next, isSpace, elementPasses⟩ :=
      arrayEnds_next (isFirst ▸ separates) value.starts passes
    -- some of the separator's whitespace may be left to the element
    obtain ⟨read, readPasses, ⟨ended, _⟩ | ⟨_, readSeparates⟩⟩ := arrayEnds_sound next
    · contradiction
    · have ends : Ends element between.unread := by
        rw [more.unread]
        exact ends_of_closes valids.closes
      have first := settles (readPasses.depth.trans level)
        ⟨space, element, isSpace, value, elementPasses, ends⟩
      rw [elementsFrom, run_bind_of_ok next]
      refine Settles.bind (first.later readPasses.unread readPasses.offset fun text leads =>
        .here (isFirst ▸ readSeparates) leads) fun _ _ => ?_
      have rest := ih (passes.depth.trans level) others (show false = (count + 1 == 0) from rfl)
        more budget (Nat.lt_of_succ_lt_succ turns)
      refine (rest.later passes.unread passes.offset fun text leads => ?_).bind fun _ _ => rfl
      exact .next separates ⟨_, value⟩ leads

theorem readArray_settles (settles : SettlesAt limit (depth + 1) lead item) :
    SettlesAt limit depth (Into Ascii.openBracket (ToElement lead true))
      (readArray limit item) := by
  intro before after level crosses
  refine opens_settles (by decide) level crosses fun text value head => ?_
  obtain ⟨shallow, texts, body, rfl, valids, each⟩ := elements_of_head value head
  refine ⟨shallow, body, rfl, fun opened level passes => ?_⟩
  have turns : texts.length < opened.unread.length + 1 := by
    have shorter := valids.length_le.1
    rw [passes.unread, List.length_append]
    omega
  have items : Settles (ToElement lead true) opened after.within ((elements item).run opened) := by
    rw [elements, run_bind_of_ok run_get]
    exact elementsFrom_settles settles level valids each rfl turns passes
  exact items.bind fun _ _ => rfl

/-- The members up to the first of a known name. -/
theorem split_known (names : List String) (members : List (String × List UInt8)) :
    ∃ passed rest, members = passed ++ rest ∧
      (∀ member ∈ passed, names.idxOf? member.1 = none) ∧
      (rest = [] ∨ ∃ name value others index, rest = (name, value) :: others ∧
        names.idxOf? name = some index) := by
  induction members with
  | nil => exact ⟨[], [], rfl, nofun, .inl rfl⟩
  | cons member members ih =>
    cases known : names.idxOf? member.1 with
    | some index => exact ⟨[], _, rfl, nofun, .inr ⟨_, _, _, index, rfl, known⟩⟩
    | none =>
      obtain ⟨passed, rest, rfl, unknown, stops⟩ := ih
      exact ⟨member :: passed, rest, rfl, List.forall_mem_cons.mpr ⟨known, unknown⟩, stops⟩

theorem ToMember.append {lead : String → List UInt8 → Prop}
    (isPassed : Passed first passed last front) (values : ∀ member ∈ passed, IsValue member.2)
    (leads : ToMember lead last text) : ToMember lead first (front ++ text) := by
  induction isPassed with
  | nil => exact leads
  | cons heading isSpace _ ih =>
    obtain ⟨value, values⟩ := List.forall_mem_cons.mp values
    rw [List.append_assoc]
    exact .next heading isSpace value (ih values leads)

/-- The texts that lead to a number in the field of a name. -/
def ToField (names : List String) (lead : Nat → List UInt8 → Prop) (name : String)
    (text : List UInt8) : Prop := ∃ index, names.idxOf? name = some index ∧ lead index text

variable {lead : Nat → List UInt8 → Prop} {field : Nat → ρ → Read ρ} {seen : List Nat}
  {record : ρ}

theorem membersFrom_settles
    (settles : ∀ index record, index < names.length →
      SettlesAt limit depth (lead index) (field index record))
    (level : before.depth = depth) (valids : Members (seen.length == 0) members text)
    (each : ∀ member ∈ members, ValueWithin (room limit depth) member.2)
    (turns : members.length < budget) (passes : Passes before text after) :
    Settles (ToMember (ToField names lead) (seen.length == 0)) before after
      ((membersFrom limit names field budget seen record).run before) := by
  induction budget generalizing before seen record members text with
  | zero => contradiction
  | succ budget ih =>
    -- one search passes the members before the first of a known name
    obtain ⟨passed, rest, rfl, unknown, stops⟩ := split_known names members
    obtain ⟨values, values'⟩ := List.forall_mem_append.mp each
    have enough : passed.length < before.unread.length := by
      have shorter := valids.length_lt
      rw [List.length_append] at shorter
      rw [passes.unread, List.length_append]
      omega
    obtain ⟨last, front, back, rfl, isPassed, following⟩ := valids.split
    have search {found tail middle} (stops : Stops names last found tail)
        (passes : Passes before (front ++ tail) middle) :
        (key limit names seen.length).run before = .ok found middle := by
      rw [key, run_bind_of_ok run_get]
      exact keyWith_complete skip_complete level isPassed rfl
        (fun member listed => ⟨unknown member listed, values member listed⟩) stops enough passes
    rcases stops with rfl | ⟨name, text, others, index, rfl, known⟩
    · cases following with
      | close isSpace =>
        rw [membersFrom, run_bind_of_ok (search (.close isSpace) passes)]
        exact rfl
    · obtain ⟨value, values'⟩ := List.forall_mem_cons.mp values'
      cases following with
      | @cons _ _ heading space _ rest _ isHeading isSpace following =>
        simp only [List.append_assoc] at passes
        rw [← List.append_assoc] at passes
        obtain ⟨middle, passes, valuePasses⟩ := passes.split
        rw [← List.append_assoc] at valuePasses
        obtain ⟨between, valuePasses, more⟩ := valuePasses.split
        have atValue := passes.depth.trans level
        -- what leads on from the member that was found leads on from here
        have reaches {text : List UInt8} (leads : ToMember (ToField names lead) last text) :=
          ToMember.append isPassed (fun member listed => ⟨_, values member listed⟩) leads
        rw [membersFrom, run_bind_of_ok (search (.found isHeading known) passes)]
        dsimp only
        split
        case isTrue => exact .schema (by decide)
        case isFalse =>
          have bound := (List.idxOf?_eq_some_iff.mp known).1
          have read := settles index record bound atValue
            ⟨space, text, isSpace, value, valuePasses, ends_of_members following more⟩
          refine Settles.bind (read.later passes.unread passes.offset fun text leads => ?_)
            fun next _ => ?_
          · rw [List.append_assoc]
            exact reaches (.here isHeading ⟨index, known, leads⟩)
          · have fewer : others.length < budget := by
              simp only [List.length_append, List.length_cons] at turns
              omega
            have rest : Settles (ToMember (ToField names lead) false) between after
                ((membersFrom limit names field budget (index :: seen) next).run between) :=
              ih (valuePasses.depth.trans atValue) following values' fewer more
            have whole := passes.trans valuePasses
            refine rest.later whole.unread whole.offset fun text leads => ?_
            have member := ToMember.next isHeading isSpace ⟨_, value⟩ leads
            simpa only [List.append_assoc] using reaches member

theorem readObject_settles
    (settles : ∀ index record, index < names.length →
      SettlesAt limit (depth + 1) (lead index) (field index record)) :
    SettlesAt limit depth (Into Ascii.openBrace (ToMember (ToField names lead) true))
      (readObject limit names field record) := by
  intro before after level crosses
  refine opens_settles (by decide) level crosses fun text value head => ?_
  obtain ⟨shallow, members, body, rfl, valids, each⟩ := members_of_head value head
  refine ⟨shallow, body, rfl, fun opened level passes => ?_⟩
  have turns : members.length < opened.unread.length := by
    have shorter := valids.length_lt
    rw [passes.unread, List.length_append]
    omega
  rw [run_bind_of_ok run_get]
  refine Settles.bind (membersFrom_settles settles level valids each turns passes) ?_
  rintro ⟨seen, record⟩ _
  have closes : closeObject.run after.within = .ok () after := rfl
  dsimp only
  rw [run_bind_of_ok closes]
  split
  case h_1 => exact .schema (by decide)
  case h_2 => exact rfl

end TypedJson.Reader
