import TypedJson.Proofs.Reader.Level
import TypedJson.Proofs.Reader.Limit
import TypedJson.Proofs.Reader.Recursion

/-! The calls under way while values are skipped, as a stack. A step goes on with the call on top as
far as to the next token, the next name or the end of a container, and leaves the calls to go on
with then. What the calls come to in full is the same before a step and after it. -/
namespace TypedJson.Reader

/-- A call that is under way. -/
inductive Activation where
  /-- Skips the value that comes next. -/
  | value
  /-- Skips the elements of an open array after the first `count`. -/
  | elements (count : Nat)
  /-- Skips an object, and waits for the search that passes over its members. -/
  | members
  /-- Searches an open object for a name, after `count` members. -/
  | search (names : List String) (count : Nat)
deriving DecidableEq, Repr

/-- Skips a value that is a single token and begins with `byte`. -/
def skipToken (byte : UInt8) : Read Unit := do
  if byte == Ascii.quote then
    let _ ← stringToken
  else if byte == Ascii.lowerT then literal "true"
  else if byte == Ascii.lowerF then literal "false"
  else if byte == Ascii.lowerN then literal "null"
  else if Ascii.startsNumber byte then
    let _ ← numeral
  else fail (SyntaxError.unexpected byte)

/-- What a call found, and the calls that are under way then. -/
abbrev Status := Option Nat × List Activation

/-- One step of a call over those that wait for it. -/
def Activation.step (limit : Nat) (waiting : List Activation) : Activation → Read Status
  | .value => do
    match ← peekToken with
    | none => fail SyntaxError.endOfInput
    | some byte =>
      if byte == Ascii.openBracket then
        enter limit
        return (none, .elements 0 :: waiting)
      else if byte == Ascii.openBrace then
        enter limit
        return (none, .search [] 0 :: .members :: waiting)
      else
        skipToken byte
        return (none, waiting)
  | .elements count => do
    if ← arrayEnds count then
      leave
      return (none, waiting)
    else return (none, .value :: .elements (count + 1) :: waiting)
  | .members => do
    leave
    return (none, waiting)
  | .search names count => do
    match ← memberName count with
    | none => return (none, waiting)
    | some name =>
      match names.idxOf? name with
      | some index => return (some index, waiting)
      | none => return (none, .value :: .search names (count + 1) :: waiting)

/-- A point of a run: the reader, with the calls under way or the error that ended them all. -/
abbrev Config := EStateM.Result Error Reader Status

/-- The next point of a run. A run stays where it has ended. -/
def next (limit : Nat) : Config → Config
  | .ok (_, top :: waiting) reader => (top.step limit waiting).run reader
  | config => config

/-! What a run comes to -/

/-- A call in full. -/
def Activation.perform (limit : Nat) : Activation → Read (Option Nat)
  | .value => do
    skip limit
    return none
  | .elements count => do
    let _ ← elementsAfter (skip limit) count
    leave
    return none
  | .members => do
    leave
    return none
  | .search names count => key limit names count

/-- The calls under way in full, one after another. -/
def performAll (limit : Nat) : (calls : List Activation) → (found : Option Nat) → Read (Option Nat)
  | [], found => return found
  | top :: waiting, _ => do performAll limit waiting (← top.perform limit)

/-- Nothing is lost or added by a step: what the calls come to is what they came to before. -/
theorem perform_step (limit : Nat) (waiting : List Activation) (top : Activation)
    (before : Reader) :
    (top.perform limit >>= performAll limit waiting).run before =
      (top.step limit waiting >>= fun status => performAll limit status.2 status.1).run before := by
  cases top with
  | value =>
    have skipped := skip_eq limit before
    simp only [Activation.perform, bind_assoc, pure_bind]
    rw [EStateM.run_bind, skipped, ← EStateM.run_bind, skipUsing, Activation.step]
    simp only [bind_assoc]
    refine run_bind_congr rfl fun head start peek => ?_
    cases head with
    | none => rfl
    | some byte =>
      dsimp only
      split
      · simp only [bind_assoc, pure_bind, performAll, Activation.perform]
        rfl
      · split
        · simp only [bind_assoc, pure_bind, performAll, Activation.perform, key]
          rfl
        · simp only [bind_assoc, pure_bind, skipToken]
  | elements count =>
    simp only [Activation.perform, Activation.step, bind_assoc, pure_bind]
    rw [EStateM.run_bind, elementsAfter_eq (skip_progresses limit), ← EStateM.run_bind]
    simp only [bind_assoc]
    refine run_bind_congr rfl fun ended middle ends => ?_
    cases ended with
    | true => rfl
    | false =>
      simp only [Bool.false_eq_true, if_false, bind_assoc, pure_bind, performAll,
        Activation.perform]
  | members => rfl
  | search names count =>
    simp only [Activation.perform, Activation.step]
    rw [EStateM.run_bind, key_eq, ← EStateM.run_bind]
    simp only [bind_assoc]
    refine run_bind_congr rfl fun found middle header => ?_
    cases found with
    | none => rfl
    | some name =>
      dsimp only
      cases names.idxOf? name with
      | some index => rfl
      | none => simp only [bind_assoc, pure_bind, performAll, Activation.perform]

/-! What a step does -/

/-- What a step of a call over those that wait for it leads to. -/
inductive Activation.Effect (limit : Nat) (waiting : List Activation) (before : Reader) :
    Activation → Config → Prop where
  | token : Advances before after → Effect limit waiting before .value (.ok (none, waiting) after)
  | array : Advances before inside → before.depth + 1 < limit →
      Effect limit waiting before .value (.ok (none, .elements 0 :: waiting) inside.within)
  | object : Advances before inside → before.depth + 1 < limit →
      Effect limit waiting before .value
        (.ok (none, .search [] 0 :: .members :: waiting) inside.within)
  | refused {error : Error} : limit ≤ before.depth + 1 → after.depth = before.depth + 1 →
      Effect limit waiting before .value (.error error after)
  | first : Passes before text after →
      Effect limit waiting before (.elements 0) (.ok (none, .value :: .elements 1 :: waiting) after)
  | element : Advances before after →
      Effect limit waiting before (.elements count)
        (.ok (none, .value :: .elements (count + 1) :: waiting) after)
  | closed : Advances before after →
      Effect limit waiting before (.elements count)
        (.ok (none, waiting) { after with depth := after.depth - 1 })
  | left : Effect limit waiting before .members
        (.ok (none, waiting) { before with depth := before.depth - 1 })
  | member : Advances before after →
      Effect limit waiting before (.search names count)
        (.ok (none, .value :: .search names (count + 1) :: waiting) after)
  | returned : Advances before after →
      Effect limit waiting before (.search names count) (.ok (found, waiting) after)
  | failed {error : Error} : after.depth = before.depth →
      Effect limit waiting before top (.error error after)

variable {limit : Nat} {waiting : List Activation} {top : Activation} {α : Type} {item : Read α}
  {before start after : Reader} {text : List UInt8} {byte : UInt8}

theorem level_skipToken (byte : UInt8) : Level (skipToken byte) :=
  (Level.bind level_stringToken fun _ => level_pure _).ite
    ((level_literal _).ite ((level_literal _).ite ((level_literal _).ite
      ((Level.bind level_numeral fun _ => level_pure _).ite (level_fail _)))))

theorem skipToken_advances (head : before.unread.head? = some byte)
    (read : (skipToken byte).run before = .ok () after) : Advances before after := by
  have word {text : String} (nonempty : Utf8.encode text.toList ≠ [])
      (read : (literal text).run before = .ok () after) : Advances before after :=
    ⟨_, nonempty, literal_iff.mp read⟩
  rw [skipToken] at read
  split at read
  case isTrue quote =>
    obtain ⟨_, middle, token, read⟩ := run_bind_ok read
    obtain ⟨_, rfl⟩ := EStateM.Result.ok.inj read
    rw [beq_iff_eq.mp quote] at head
    obtain ⟨text, spelled, passes⟩ := stringToken_sound head token
    exact advances_of_head? passes spelled.head?
  case isFalse =>
    split at read
    case isTrue => exact word (by decide) read
    case isFalse =>
      split at read
      case isTrue => exact word (by decide) read
      case isFalse =>
        split at read
        case isTrue => exact word (by decide) read
        case isFalse =>
          split at read
          case isFalse => contradiction
          case isTrue =>
            obtain ⟨number, middle, token, read⟩ := run_bind_ok read
            obtain ⟨_, rfl⟩ := EStateM.Result.ok.inj read
            obtain ⟨valid, _, passes, _⟩ := numeral_sound token
            obtain ⟨_, head, _⟩ := number_begins valid
            exact advances_of_head? passes head

namespace Activation

theorem Effect.bind {k : α → Read Status} (level : Level item) (same : start.depth = before.depth)
    (following : ∀ value middle, item.run start = .ok value middle →
      Effect limit waiting before top ((k value).run middle)) :
    Effect limit waiting before top ((item >>= k).run start) := by
  rw [EStateM.run_bind]
  cases run : item.run start with
  | error error after => exact .failed ((level.2 _ _ run).trans same)
  | ok value middle => exact following value middle run

/-- The bracket of a container is refused, or passed with the container counted. -/
theorem Effect.enter {status : Status} (head : start.unread.head? = some byte)
    (passes : Passes before text start)
    (opened : ∀ inside, Advances before inside → before.depth + 1 < limit →
      Effect limit waiting before .value (.ok status inside.within)) :
    Effect limit waiting before .value ((enter limit >>= fun _ => pure status).run start) := by
  have bracket := passes_head head
  have advances := passes.advances (advances_of_head? bracket rfl)
  by_cases shallow : start.depth + 1 < limit
  · have enters : (Reader.enter limit).run start = .ok () (start.advance 1).within :=
      (enter_iff head).mpr ⟨shallow, _, bracket, rfl⟩
    rw [run_bind_of_ok enters]
    exact opened _ advances (by rwa [← passes.depth])
  · rw [EStateM.run_bind, enter_refuses shallow]
    refine .refused ?_ (congrArg (· + 1) advances.depth)
    rw [← passes.depth]
    exact Nat.le_of_not_lt shallow

theorem effect_value (limit : Nat) (waiting : List Activation) (before : Reader) :
    Effect limit waiting before .value ((value.step limit waiting).run before) := by
  refine Effect.bind level_peekToken rfl fun head start peek => ?_
  obtain ⟨space, _, passes, rfl⟩ := peekToken_sound peek
  cases head : start.unread.head? with
  | none => exact .failed passes.depth
  | some byte =>
    dsimp only
    split
    case isTrue => exact .enter head passes fun _ => .array
    case isFalse =>
      split
      case isTrue => exact .enter head passes fun _ => .object
      case isFalse =>
        refine .bind (level_skipToken byte) passes.depth fun _ after read => ?_
        exact .token (passes.advances (skipToken_advances head read))

theorem effect_elements (limit : Nat) (waiting : List Activation) (count : Nat) (before : Reader) :
    Effect limit waiting before (.elements count)
      (((elements count).step limit waiting).run before) := by
  refine Effect.bind (level_arrayEnds count) rfl fun ended middle ends => ?_
  obtain ⟨text, passes, ⟨rfl, _, _, rfl⟩ | ⟨rfl, separates⟩⟩ := arrayEnds_sound ends
  · exact .closed ⟨_, by simp, passes⟩
  · by_cases isFirst : count = 0
    · subst isFirst
      exact .first passes
    · rw [beq_eq_false_iff_ne.mpr isFirst] at separates
      cases separates
      exact .element ⟨_, by simp, passes⟩

theorem effect_search (limit : Nat) (waiting : List Activation) (names : List String) (count : Nat)
    (before : Reader) : Effect limit waiting before (.search names count)
      (((search names count).step limit waiting).run before) := by
  refine Effect.bind (level_memberName count) rfl fun found middle header => ?_
  obtain ⟨text, passes, ⟨rfl, _, _, rfl⟩ | ⟨name, rfl, heading⟩⟩ := memberName_sound header
  · exact .returned ⟨_, by simp, passes⟩
  · have advances : Advances before middle := by
      obtain ⟨_, _, _⟩ := heading
      exact ⟨_, by simp, passes⟩
    dsimp only
    cases names.idxOf? name with
    | some index => exact .returned advances
    | none => exact .member advances

theorem effect (limit : Nat) (waiting : List Activation) (before : Reader) (top : Activation) :
    Effect limit waiting before top ((top.step limit waiting).run before) := by
  cases top with
  | value => exact effect_value limit waiting before
  | elements count => exact effect_elements limit waiting count before
  | members => exact .left
  | search names count => exact effect_search limit waiting names count before

end Activation

end TypedJson.Reader
