import TypedJson.Proofs.Cursor.Run
import TypedJson.Proofs.Reader.Binary
import TypedJson.Proofs.Reader.Examination
import TypedJson.Proofs.Reader.Mismatch
import TypedJson.Proofs.Reader.Range
import TypedJson.Schema.Read

/-! Where a scalar that is not read leaves the reader. A token of another kind is not touched, and
one of the right kind is passed over whole before its value is looked at. So the reader stands on
one end of the token or on the other, and what is read next can tell no more of the call than
that. -/
namespace TypedJson.Reader
open Grammar

/-- A kind of scalar: the bytes its tokens begin with, and the error for a token of another kind. -/
structure Kind where
  begins : UInt8 → Bool
  mismatch : SchemaError

namespace Call

/-- The kind of scalar that a call reads, unless it reads none. -/
def kind? : Call → Option Kind
  | boolean => some ⟨fun byte => byte == Ascii.lowerT || byte == Ascii.lowerF, .boolean⟩
  | integer type =>
    some ⟨Ascii.startsNumber, if type.signed then .integer else .unsignedInteger⟩
  | real => some ⟨Ascii.startsNumber, .number⟩
  | string => some ⟨(· == Ascii.quote), .string⟩
  | binary _ => some ⟨(· == Ascii.quote), .fixedBinary⟩
  | enumeration _ => some ⟨(· == Ascii.quote), .enumeration⟩
  | _ => none

/-- Whether a call reads on in the document, whatever it reads. -/
def Reads : Call → Prop
  | closeArray | closeObject | finish | report _ => False
  | _ => True

/-- Why a call refuses a token of its kind that stands at an offset. -/
inductive Refuses : Call → List UInt8 → Nat → Error → Prop where
  | fraction {type : IntegerType} : Number text → isIntegral text = false →
      Refuses (.integer type) text place (notInteger type place)
  | below {type : IntegerType} : Number text → isIntegral text = true →
      Numeral.toInt ⟨text, true⟩ < type.lowest →
        Refuses (.integer type) text place (tooSmall type text place)
  | above {type : IntegerType} : Number text → isIntegral text = true →
      type.highest < Numeral.toInt ⟨text, true⟩ →
        Refuses (.integer type) text place (tooLarge type text place)
  | overflow : Number text → (Numeral.toBinary64 ⟨text, isIntegral text⟩).isFinite = false →
      Refuses .real text place ⟨SyntaxError.numberTooBig, none, place⟩
  | digits {width : Nat} {fault : Hex.Fault} : Grammar.StringToken text spelled →
      Hex.decode width (Utf8.encode spelled.toList) = .error fault →
        Refuses (.binary width) text place ⟨SchemaError.fixedBinary, some fault.message, place⟩
  | name : Grammar.StringToken text spelled → spelled ∉ names →
      Refuses (.enumeration names) text place
        ⟨SchemaError.enumeration, some s!"{Text.quoted spelled} is not a valid enum", place⟩

theorem Refuses.offset {call : Call} {text : List UInt8} {place : Nat} {error : Error}
    (refuses : call.Refuses text place error) :
    error.offset = place := by
  cases refuses <;> rfl

end Call

variable {α β : Type} {before middle after last start : Reader} {space text : List UInt8}
  {byte : UInt8} {limit levels budget count : Nat} {names : List String} {inner : Read Unit}
  {options : Options} {call : Call} {error : Error}

/-! Whitespace in front -/

/-- A step that comes to the same with the whitespace before it passed. -/
def IgnoresSpace (item : Read α) : Prop :=
  ∀ before, item.run before.skipWhitespace = item.run before

theorem IgnoresSpace.bind {item : Read α} {k : α → Read β} (ignores : IgnoresSpace item) :
    IgnoresSpace (item >>= k) := by
  intro before
  rw [EStateM.run_bind, EStateM.run_bind, ignores before]

theorem peekToken_ignores : IgnoresSpace peekToken := by
  intro before
  obtain ⟨_, _, _, stops⟩ := skipWhitespace_passes before
  have same := skipWhitespace_eq .nil (.refl before.skipWhitespace) stops
  change EStateM.Result.ok before.skipWhitespace.skipWhitespace.unread.head?
      before.skipWhitespace.skipWhitespace =
    .ok before.skipWhitespace.unread.head? before.skipWhitespace
  rw [same]

theorem expect_ignores {accept : UInt8 → Bool} {expected : SchemaError} :
    IgnoresSpace (expect accept expected) :=
  IgnoresSpace.bind peekToken_ignores

theorem skip_ignores : IgnoresSpace (skip limit) := by
  intro before
  have within (levels : Nat) : IgnoresSpace (skipWithin limit levels) := by
    cases levels with
    | zero => exact IgnoresSpace.bind peekToken_ignores
    | succ levels => exact IgnoresSpace.bind peekToken_ignores
  exact within _ before

/-- Turns beyond the unread bytes make no difference to a search. -/
theorem keyWith_enough {budget' : Nat}
    (passes : ∀ before after, inner.run before = .ok () after → ∃ text, Passes before text after)
    (enough : before.unread.length ≤ budget) (enough' : before.unread.length ≤ budget') :
    (keyWith inner names budget count).run before =
      (keyWith inner names budget' count).run before := by
  induction size : before.unread.length using Nat.strong_induction_on
    generalizing before budget budget' count with
  | h size ih =>
    rw [keyWith_turn enough, keyWith_turn enough']
    cases header : (memberName count).run before with
    | error => rw [EStateM.run_bind, EStateM.run_bind, header]
    | ok found middle =>
      rw [run_bind_of_ok header, run_bind_of_ok header]
      obtain ⟨heading, headingPasses, ⟨rfl, _⟩ | ⟨name, rfl, isHeading⟩⟩ := memberName_sound header
      · rfl
      · dsimp only
        cases names.idxOf? name with
        | some index => rfl
        | none =>
          dsimp only
          cases skipped : inner.run middle with
          | error => rw [EStateM.run_bind, EStateM.run_bind, skipped]
          | ok _ next =>
            obtain ⟨value, valuePasses⟩ := passes _ _ skipped
            have positive : 0 < heading.length := by
              obtain ⟨_, _, _⟩ := isHeading
              simp only [List.length_append, List.length_cons]
              omega
            have shorter : next.unread.length + heading.length ≤ before.unread.length := by
              rw [headingPasses.unread, valuePasses.unread]
              simp only [List.length_append]
              omega
            rw [run_bind_of_ok skipped, run_bind_of_ok skipped]
            exact ih next.unread.length (by omega) (by omega) (by omega) rfl

theorem key_ignores : IgnoresSpace (key limit names count) := by
  intro before
  obtain ⟨space, _, passes, _⟩ := skipWhitespace_passes before
  have shorter : before.skipWhitespace.unread.length ≤ before.unread.length := by
    rw [passes.unread, List.length_append]
    omega
  have passed (before after : Reader) (skipped : (skip limit).run before = .ok () after) :
      ∃ text, Passes before text after := by
    obtain ⟨_, _, _, _, passes, _⟩ := skip_sound rfl skipped
    exact ⟨_, passes⟩
  rw [key, run_bind_of_ok run_get, run_bind_of_ok run_get,
    keyWith_enough passed (Nat.le_refl _) shorter, keyWith_turn shorter,
    keyWith_turn (Nat.le_refl _)]
  exact (IgnoresSpace.bind peekToken_ignores).bind before

theorem Call.ignoresSpace (options : Options) (call : Call) (reads : call.Reads) :
    IgnoresSpace (call.read options) := by
  cases call with
  | boolean | integer | real | string | binary | enumeration | openArray | openObject =>
    exact IgnoresSpace.bind expect_ignores
  | arrayEnds => exact IgnoresSpace.bind peekToken_ignores
  | key => exact key_ignores
  | skip => exact skip_ignores
  | closeArray | closeObject | finish | report => exact reads.elim

theorem readInto_ignores (schema : Schema) (target : schema.Value) :
    IgnoresSpace (schema.readInto limit target) := by
  cases schema with
  | boolean | integer | real | string | binary | enumeration =>
    exact IgnoresSpace.bind expect_ignores
  | array | object => exact (IgnoresSpace.bind expect_ignores).bind

/-! Tokens of the right kind -/

variable {kind : Kind}

/-- Where a number stands, what is read as a binary64 is settled by its text. -/
theorem real_number (isSpace : Space space) (number : Number text)
    (spacePasses : Passes before space start) (textPasses : Passes start text after)
    (ends : EndsNumber text after.unread) :
    real.run before =
      let value := Numeral.toBinary64 ⟨text, isIntegral text⟩
      if value.isFinite then .ok value after
      else .error ⟨SyntaxError.numberTooBig, none, start.offset⟩ after := by
  obtain ⟨byte, head, starts, token⟩ := number_begins number
  have first : start.unread.head? = some byte := by
    rw [textPasses.unread, List.head?_append, head, Option.some_or]
  rw [real, run_bind_of_ok (expect_complete isSpace spacePasses first token starts),
    run_bind_of_ok run_get, run_bind_of_ok (numeral_complete number textPasses ends)]
  dsimp only
  split <;> rfl

/-- Where a string token stands, what is read as an enumeration is settled by the text it spells. -/
theorem enumeration_token {spelled : String} (names : List String) (isSpace : Space space)
    (token : Grammar.StringToken text spelled) (spacePasses : Passes before space start)
    (textPasses : Passes start text after) :
    (enumeration names).run before =
      match names.idxOf? spelled with
      | some index => .ok index after
      | none => .error ⟨SchemaError.enumeration,
          some s!"{Text.quoted spelled} is not a valid enum", start.offset⟩ after := by
  have head : start.unread.head? = some Ascii.quote := by
    rw [textPasses.unread, List.head?_append, token.head?, Option.some_or]
  rw [enumeration, run_bind_of_ok (expect_complete isSpace spacePasses head rfl rfl),
    run_bind_of_ok run_get, run_bind_of_ok (stringToken_complete token textPasses)]
  cases names.idxOf? spelled <;> rfl

/-- A token of the right kind is passed over whole before its value is refused. -/
theorem Call.refuses_token (isScalar : call.kind? = some kind) (isSpace : Space space)
    (value : ValueWithin levels text) (spacePasses : Passes before space start)
    (textPasses : Passes start text after) (ends : Ends text after.unread)
    (head : text.head? = some byte) (begins : kind.begins byte = true)
    (failed : (call.read options).run before = .error error last) :
    last = after ∧ call.Refuses text start.offset error := by
  have whole := spacePasses.trans textPasses
  cases call with
  | boolean =>
    obtain rfl := Option.some.inj isScalar
    obtain ⟨spelled, rfl⟩ := boolean_of_head value head (by simpa using begins)
    rw [Call.read, boolean_complete rfl ⟨space, _, isSpace, rfl, whole, ends⟩] at failed
    contradiction
  | integer type =>
    obtain rfl := Option.some.inj isScalar
    have number := number_of_head value head begins
    have read := integer_number type isSpace number spacePasses textPasses (ends number)
    rw [Call.read, read] at failed
    split at failed
    case isFalse fractional =>
      obtain ⟨rfl, rfl⟩ := EStateM.Result.error.inj failed
      exact ⟨rfl, .fraction number (Bool.eq_false_iff.mpr fractional)⟩
    case isTrue integral =>
      rw [integral] at failed
      dsimp only at failed
      split at failed
      case isFalse low =>
        obtain ⟨rfl, rfl⟩ := EStateM.Result.error.inj failed
        exact ⟨rfl, .below number integral (Int.not_le.mp low)⟩
      case isTrue =>
        split at failed
        case isFalse high =>
          obtain ⟨rfl, rfl⟩ := EStateM.Result.error.inj failed
          exact ⟨rfl, .above number integral (Int.not_le.mp high)⟩
        case isTrue => contradiction
  | real =>
    obtain rfl := Option.some.inj isScalar
    have number := number_of_head value head begins
    rw [Call.read, real_number isSpace number spacePasses textPasses (ends number)] at failed
    dsimp only at failed
    split at failed
    case isTrue => contradiction
    case isFalse infinite =>
      obtain ⟨rfl, rfl⟩ := EStateM.Result.error.inj failed
      exact ⟨rfl, .overflow number (Bool.eq_false_iff.mpr infinite)⟩
  | string =>
    obtain rfl := Option.some.inj isScalar
    obtain ⟨spelled, token⟩ := string_of_head value (head.trans (congrArg _ (beq_iff_eq.mp begins)))
    rw [Call.read, string_complete rfl ⟨space, _, isSpace, token, whole, ends⟩] at failed
    contradiction
  | binary width =>
    obtain rfl := Option.some.inj isScalar
    obtain ⟨spelled, token⟩ := string_of_head value (head.trans (congrArg _ (beq_iff_eq.mp begins)))
    rw [Call.read, binary_token width isSpace token spacePasses textPasses] at failed
    split at failed
    case h_1 => contradiction
    case h_2 fault decoded =>
      obtain ⟨rfl, rfl⟩ := EStateM.Result.error.inj failed
      exact ⟨rfl, .digits token decoded⟩
  | enumeration names =>
    obtain rfl := Option.some.inj isScalar
    obtain ⟨spelled, token⟩ := string_of_head value (head.trans (congrArg _ (beq_iff_eq.mp begins)))
    rw [Call.read, enumeration_token names isSpace token spacePasses textPasses] at failed
    split at failed
    case h_1 => contradiction
    case h_2 missing =>
      obtain ⟨rfl, rfl⟩ := EStateM.Result.error.inj failed
      exact ⟨rfl, .name token (List.idxOf?_eq_none_iff.mp missing)⟩
  | _ => contradiction

/-- A token of another kind is refused where it stands. -/
theorem Call.refuses_kind (options : Options) (isScalar : call.kind? = some kind)
    (isSpace : Space space) (spacePasses : Passes before space start)
    (head : start.unread.head? = some byte) (starts : Ascii.startsValue byte = true)
    (other : kind.begins byte = false) :
    (call.read options).run before = .error (start.error kind.mismatch) start := by
  have refused : (expect kind.begins kind.mismatch).run before =
      .error (start.error kind.mismatch) start :=
    expect_refuses isSpace spacePasses head starts other
  cases call with
  | boolean | integer | real | string | binary | enumeration =>
    obtain rfl := Option.some.inj isScalar
    rw [Call.read]
    exact (EStateM.run_bind ..).trans (by rw [refused])
  | _ => contradiction

/-- Where a value could be skipped and a scalar is not read, the depth stays and the error is at the
first byte of the value. A value of another kind is left there, and what is read next reads as if
the scalar had never been asked for; a token of the right kind is passed over, as skipping passes
it, and refused for what it stands for. -/
theorem scalar_boundary (isScalar : call.kind? = some kind)
    (skips : (skip options.depthLimit).run before = .ok () after)
    (failed : (call.read options).run before = .error error last) :
    let start := before.skipWhitespace
    last.depth = before.depth ∧ error.offset = start.offset ∧
      ∃ text byte, IsValue text ∧ text.head? = some byte ∧ Passes start text after ∧
        (kind.begins byte = false ∧ last = start ∧ error = start.error kind.mismatch ∧
            (∀ next : Call, next.Reads →
              (next.read options).run last = (next.read options).run before) ∧
            (∀ (schema : Schema) (target : schema.Value),
              (schema.readInto options.depthLimit target).run last =
                (schema.readInto options.depthLimit target).run before) ∨
          kind.begins byte = true ∧ last = after ∧ call.Refuses text start.offset error) := by
  intro start
  obtain ⟨space, text, isSpace, value, passes, ends⟩ := skip_sound rfl skips
  obtain ⟨middle, spacePasses, textPasses⟩ := passes.split
  obtain ⟨byte, head, starts⟩ := value.starts
  have first : middle.unread.head? = some byte := by
    rw [textPasses.unread, List.head?_append, head, Option.some_or]
  have token := startsValue_token starts
  have same : start = middle := by
    refine skipWhitespace_eq isSpace spacePasses fun other found => ?_
    rwa [Option.some.inj (found.symm.trans first)]
  rw [← same] at spacePasses textPasses first
  cases begins : kind.begins byte with
  | false =>
    have refused := Call.refuses_kind options isScalar isSpace spacePasses first starts begins
    obtain ⟨rfl, rfl⟩ := EStateM.Result.error.inj (failed.symm.trans refused)
    exact ⟨spacePasses.depth, rfl, text, byte, ⟨_, value⟩, head, textPasses, .inl ⟨begins, rfl, rfl,
      fun next reads => next.ignoresSpace options reads before,
      fun schema target => readInto_ignores schema target before⟩⟩
  | true =>
    obtain ⟨rfl, refuses⟩ :=
      Call.refuses_token isScalar isSpace value spacePasses textPasses ends head begins failed
    exact ⟨passes.depth, refuses.offset, text, byte, ⟨_, value⟩, head, textPasses,
      .inr ⟨begins, rfl, refuses⟩⟩

/-- Before `null` no number is read, and the reader stands on it; `300` is no byte, and the reader
has passed it. -/
theorem scalar_boundary_byte :
    (∀ next : Call, next.Reads → (next.read {}).run ⟨Utf8.encode "null,".toList, 8, 1⟩ =
      (next.read {}).run ⟨Utf8.encode " null,".toList, 7, 1⟩) ∧
    ∃ text, (Call.integer .uint8).Refuses text 8
      ⟨SchemaError.aboveMaximum, some "300 given when 255 is maximum permitted", 8⟩ := by
  have isByte : (Call.integer .uint8).kind? = some ⟨Ascii.startsNumber, .unsignedInteger⟩ := rfl
  constructor
  · have skips : (skip ({} : Options).depthLimit).run ⟨Utf8.encode " null,".toList, 7, 1⟩ =
      .ok () ⟨Utf8.encode ",".toList, 12, 1⟩ := rfl
    have failed : ((Call.integer .uint8).read {}).run ⟨Utf8.encode " null,".toList, 7, 1⟩ =
      .error ⟨SchemaError.unsignedInteger, none, 8⟩ ⟨Utf8.encode "null,".toList, 8, 1⟩ := rfl
    obtain ⟨_, _, _, _, _, _, _, ⟨_, _, _, same, _⟩ | ⟨_, past, _⟩⟩ :=
      scalar_boundary isByte skips failed
    · exact same
    · exact absurd (congrArg offset past) (by decide)
  · have skips : (skip ({} : Options).depthLimit).run ⟨Utf8.encode " 300,".toList, 7, 1⟩ =
      .ok () ⟨Utf8.encode ",".toList, 11, 1⟩ := rfl
    have failed : ((Call.integer .uint8).read {}).run ⟨Utf8.encode " 300,".toList, 7, 1⟩ =
      .error ⟨SchemaError.aboveMaximum, some "300 given when 255 is maximum permitted", 8⟩
        ⟨Utf8.encode ",".toList, 11, 1⟩ := rfl
    obtain ⟨_, _, text, _, _, _, _, ⟨_, still, _⟩ | ⟨_, _, refuses⟩⟩ :=
      scalar_boundary isByte skips failed
    · exact absurd (congrArg offset still) (by decide)
    · exact ⟨text, refuses⟩

end TypedJson.Reader
