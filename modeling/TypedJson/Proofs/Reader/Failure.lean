import TypedJson.Schema.Read

/-! The causes a step can fail for. A cause is allowed for a composed step if it is allowed for each
of its parts, so what no single step raises is raised by no run of them. -/
namespace TypedJson

/-- Whether the document ended, as far as it was to be read, with containers open. -/
def SyntaxError.isUnclosed : SyntaxError → Bool
  | .unclosed _ => true
  | _ => false

def Cause.isUnclosed : Cause → Bool
  | .malformed error => error.isUnclosed
  | _ => false

/-! String tokens -/

namespace Escape

variable {α β : Type} {bytes : List UInt8} {distance value limit : Nat}
  {allowed wider : Fault → Prop}

/-- Every fault of a computation is allowed. -/
def Faults (allowed : Fault → Prop) (m : Except Fault α) : Prop := ∀ ⦃fault⦄, m = .error fault →
  allowed fault

theorem Faults.ok (value : α) : Faults allowed (.ok value) := nofun

theorem Faults.error {fault : Fault} (holds : allowed fault) :
    Faults allowed (.error fault : Except Fault α) := by
  rintro _ ⟨⟩
  exact holds

theorem Faults.imp {m : Except Fault α} (faults : Faults allowed m)
    (weaker : ∀ fault, allowed fault → wider fault) : Faults wider m :=
  fun _ failed => weaker _ (faults failed)

theorem Faults.bind {m : Except Fault α} {k : α → Except Fault β} (first : Faults allowed m)
    (following : ∀ value, m = .ok value → Faults allowed (k value)) : Faults allowed (m >>= k) := by
  cases m with
  | error fault => exact .error (first rfl)
  | ok value => exact following value rfl

/-- The cause of a fault is not an open container. -/
def Fault.Closed (fault : Fault) : Prop := fault.cause.isUnclosed = false

/-- What an escape can have as fault: it leaves the token unread, and lies no further than `limit`
bytes into it. -/
structure Fault.OfEscape (limit : Nat) (fault : Fault) : Prop where
  closed : fault.Closed
  unread : fault.stops = false
  distance_le : fault.distance ≤ limit

theorem hexValue_faults (bound : distance + bytes.length ≤ limit) :
    Faults (Fault.OfEscape limit) (hexValue distance value bytes) := by
  induction bytes generalizing distance value with
  | nil => exact .ok value
  | cons byte bytes ih =>
    rw [List.length_cons] at bound
    rw [hexValue]
    split
    case h_1 => exact ih (by omega)
    case h_2 =>
      have closed (cause : SyntaxError) (h : cause.isUnclosed = false) :
          Fault.OfEscape limit ⟨cause, distance, false⟩ := ⟨h, rfl, by dsimp only; omega⟩
      refine .error (closed _ ?_)
      split <;> rfl

theorem codeUnit_faults (bound : distance + bytes.length ≤ limit) :
    Faults (Fault.OfEscape limit) (codeUnit distance bytes) := by
  rw [codeUnit]
  split
  case isTrue => exact .error ⟨rfl, rfl, bound⟩
  case isFalse =>
    apply hexValue_faults
    rw [List.length_take]
    omega

theorem decodeUnit_faults (bound : distance + 2 + bytes.length ≤ limit) :
    Faults (Fault.OfEscape limit) (decodeUnit distance bytes) := by
  have early : distance ≤ limit := by omega
  apply (codeUnit_faults bound).bind
  intro high _
  split
  case isTrue =>
    split
    case h_1 rest dropped =>
      have length := congrArg List.length dropped
      rw [List.length_drop, List.length_cons, List.length_cons] at length
      apply (codeUnit_faults (by omega)).bind
      intro low _
      split
      case isTrue => exact .ok _
      case isFalse => exact .error ⟨rfl, rfl, by dsimp only; omega⟩
    case h_2 => exact .error ⟨rfl, rfl, early⟩
  case isFalse =>
    split
    case isTrue => exact .error ⟨rfl, rfl, early⟩
    case isFalse => exact .ok _

theorem decode_faults (bound : distance + 1 + bytes.length ≤ limit) :
    Faults (Fault.OfEscape limit) (decode distance bytes) := by
  cases bytes with
  | nil => exact .error ⟨rfl, rfl, bound⟩
  | cons letter rest =>
    rw [List.length_cons] at bound
    rw [decode]
    split
    case h_1 => exact .ok _
    case h_2 =>
      split
      case isTrue => exact decodeUnit_faults (by omega)
      case isFalse =>
        have closed (cause : SyntaxError) (h : cause.isUnclosed = false) :
            Fault.OfEscape limit ⟨cause, distance + 1, false⟩ := ⟨h, rfl, by dsimp only; omega⟩
        refine .error (closed _ ?_)
        split <;> rfl

end Escape

namespace StringToken
open Escape

variable {bytes : List UInt8} {distance : Nat}

theorem plain_closed : Faults Fault.Closed (plain distance bytes) := by
  rw [plain]
  split
  case h_1 => exact .error rfl
  case h_2 =>
    split
    case h_1 => exact .ok _
    case h_2 => exact .error rfl

theorem body_closed : Faults Fault.Closed (body distance bytes) := by
  induction length : bytes.length using Nat.strongRecOn generalizing distance bytes with
  | _ count ih =>
  rw [body]
  split
  case h_1 => exact .error rfl
  case h_2 delimiter rest dropped =>
    apply Faults.bind plain_closed
    intro chars _
    split
    case isTrue => exact .ok _
    case isFalse =>
      refine ((decode_faults (Nat.le_refl _)).imp fun _ fault => fault.closed).bind ?_
      rintro ⟨char, size⟩ _
      have shorter : (rest.drop (size - 1)).length < count := by
        have := congrArg List.length dropped
        simp only [List.length_drop, List.length_cons] at this ⊢
        omega
      exact (ih _ shorter rfl).bind fun _ _ => .ok _

theorem scan_closed : Faults Fault.Closed (scan bytes) := Faults.bind body_closed fun _ _ => .ok _

end StringToken

/-! Steps of a reader -/

namespace Reader

variable {α β ρ : Type} {limit budget count : Nat} {names : List String} {item : Read α}
  {inner : Read Unit}

/-- Every failure of a step has a cause other than an open container. -/
def Closes (item : Read α) : Prop := ∀ ⦃before error after⦄,
  item.run before = .error error after → error.cause.isUnclosed = false

theorem closes_pure (value : α) : Closes (pure value) := nofun

theorem closes_get : Closes get := nofun

theorem closes_modify (f : Reader → Reader) : Closes (modify f) := nofun

theorem closes_failAt {cause : Cause} (offset : Nat) (context : Option String)
    (closed : cause.isUnclosed = false) : Closes (failAt offset cause context : Read α) := by
  rintro before error after ⟨⟩
  exact closed

theorem closes_fail {cause : Cause} (closed : cause.isUnclosed = false) :
    Closes (fail cause : Read α) := by
  rintro before error after ⟨⟩
  exact closed

theorem Closes.bind {k : α → Read β} (first : Closes item) (following : ∀ value, Closes (k value)) :
    Closes (item >>= k) := by
  intro before error after failed
  rw [EStateM.run_bind] at failed
  cases run : item.run before with
  | error error reader =>
    rw [run] at failed
    cases failed
    exact first run
  | ok value middle =>
    rw [run] at failed
    exact following value failed

theorem unexpected_closed (byte : UInt8) :
    Cause.isUnclosed (.malformed (.unexpected byte)) = false := by
  rw [SyntaxError.unexpected]
  split <;> rfl

theorem closes_peekToken : Closes peekToken := nofun

theorem closes_expect (accept : UInt8 → Bool) (expected : SchemaError) :
    Closes (expect accept expected) := by
  apply Closes.bind closes_peekToken
  intro head
  split
  case h_1 => exact closes_fail rfl
  case h_2 =>
    split
    case isTrue => exact closes_pure _
    case isFalse =>
      split
      case isTrue => exact closes_fail rfl
      case isFalse => exact closes_fail (unexpected_closed _)

theorem closes_literal (word : String) : Closes (literal word) := by
  apply Closes.bind closes_get
  intro reader
  split
  case isTrue => exact closes_modify _
  case isFalse => exact closes_fail rfl

theorem closes_numeral : Closes numeral := by
  apply Closes.bind closes_get
  intro reader
  split
  case h_1 => exact (closes_modify _).bind fun _ => closes_pure _
  case h_2 => exact closes_failAt _ _ rfl

theorem closes_stringToken : Closes stringToken := by
  apply Closes.bind closes_get
  intro reader
  split
  case h_1 => exact (closes_modify _).bind fun _ => closes_pure _
  case h_2 fault scanned =>
    have closed := StringToken.scan_closed scanned
    split
    case isTrue => exact (closes_modify _).bind fun _ => closes_failAt _ _ closed
    case isFalse => exact closes_failAt _ _ closed

theorem closes_boolean : Closes boolean := by
  refine (closes_expect _ _).bind fun byte => ?_
  split
  case isTrue => exact (closes_literal _).bind fun _ => closes_pure _
  case isFalse => exact (closes_literal _).bind fun _ => closes_pure _

theorem closes_integer (type : IntegerType) : Closes (integer type) := by
  refine (closes_expect _ _).bind fun _ => Closes.bind closes_get fun _ =>
    Closes.bind closes_numeral fun _ => ?_
  split
  case isTrue =>
    dsimp only
    split
    case isTrue =>
      split
      case isTrue => exact closes_pure _
      case isFalse => exact closes_failAt _ _ rfl
    case isFalse => exact closes_failAt _ _ rfl
  case isFalse => exact closes_failAt _ _ rfl

theorem closes_real : Closes real := by
  refine (closes_expect _ _).bind fun _ => Closes.bind closes_get fun _ =>
    Closes.bind closes_numeral fun _ => ?_
  dsimp only
  split
  case isTrue => exact closes_pure _
  case isFalse => exact closes_failAt _ _ rfl

theorem closes_string : Closes string := (closes_expect _ _).bind fun _ => closes_stringToken

theorem closes_binary (width : Nat) : Closes (binary width) := by
  refine (closes_expect _ _).bind fun _ => Closes.bind closes_get fun _ =>
    Closes.bind closes_stringToken fun _ => ?_
  split
  case h_1 => exact closes_pure _
  case h_2 => exact closes_failAt _ _ rfl

theorem closes_enumeration (names : List String) : Closes (enumeration names) := by
  refine (closes_expect _ _).bind fun _ => Closes.bind closes_get fun _ =>
    Closes.bind closes_stringToken fun _ => ?_
  split
  case h_1 => exact closes_pure _
  case h_2 => exact closes_failAt _ _ rfl

theorem closes_enter (limit : Nat) : Closes (enter limit) := by
  refine (closes_modify _).bind fun _ => Closes.bind closes_get fun _ => ?_
  split
  case isTrue => exact closes_fail rfl
  case isFalse => exact closes_pure _

theorem closes_leave : Closes leave := closes_modify _

theorem closes_arrayEnds (count : Nat) : Closes (arrayEnds count) := by
  apply Closes.bind closes_peekToken
  intro head
  split
  case h_1 => exact closes_fail rfl
  case h_2 =>
    split
    case isTrue => exact (closes_modify _).bind fun _ => closes_pure _
    case isFalse =>
      split
      case isTrue => exact closes_pure _
      case isFalse =>
        split
        case isTrue => exact (closes_modify _).bind fun _ => closes_pure _
        case isFalse => exact closes_fail rfl

theorem closes_elementsFrom (closes : Closes item) : Closes (elementsFrom item budget count) := by
  induction budget generalizing count with
  | zero => exact closes_fail rfl
  | succ budget ih =>
    refine (closes_arrayEnds count).bind fun ended => ?_
    split
    case isTrue => exact closes_pure _
    case isFalse => exact closes.bind fun _ => ih.bind fun _ => closes_pure _

theorem closes_elements (closes : Closes item) : Closes (elements item) :=
  Closes.bind closes_get fun _ => closes_elementsFrom closes

theorem closes_nameAndColon : Closes nameAndColon := by
  apply Closes.bind closes_peekToken
  intro head
  have colon (name : String) : Closes (do
      if (← peekToken) ≠ some Ascii.colon then fail SyntaxError.missingColon
      consume 1
      return name) := by
    apply Closes.bind closes_peekToken
    intro head
    have rest : Closes (consume 1 >>= fun _ => pure name) :=
      (closes_modify _).bind fun _ => closes_pure _
    split
    case isTrue => exact (closes_fail rfl).bind fun _ => rest
    case isFalse => exact rest
  have rest := Closes.bind closes_stringToken colon
  split
  case isTrue => exact (closes_fail rfl).bind fun _ => rest
  case isFalse => exact rest

theorem closes_memberName (count : Nat) : Closes (memberName count) := by
  apply Closes.bind closes_peekToken
  intro head
  have rest : Closes (nameAndColon >>= fun name => pure (some name)) :=
    Closes.bind closes_nameAndColon fun _ => closes_pure _
  split
  case h_1 => exact closes_fail rfl
  case h_2 =>
    split
    case isTrue => exact (closes_modify _).bind fun _ => closes_pure _
    case isFalse =>
      split
      case isTrue =>
        split
        case isTrue => exact (closes_modify _).bind fun _ => rest
        case isFalse => exact (closes_fail rfl).bind fun _ => rest
      case isFalse => exact rest

theorem closes_keyWith (closes : Closes inner) : Closes (keyWith inner names budget count) := by
  induction budget generalizing count with
  | zero => exact closes_fail rfl
  | succ budget ih =>
    refine (closes_memberName count).bind fun named => ?_
    split
    case h_1 => exact closes_pure _
    case h_2 =>
      split
      case h_1 => exact closes_pure _
      case h_2 => exact closes.bind fun _ => ih

theorem closes_skipUsing (closes : Closes inner) : Closes (skipUsing limit inner) := by
  apply Closes.bind closes_peekToken
  intro head
  split
  case h_1 => exact closes_fail rfl
  case h_2 =>
    split
    case isTrue =>
      exact (closes_enter limit).bind fun _ => (closes_elements closes).bind fun _ => closes_leave
    case isFalse =>
    split
    case isTrue =>
      exact (closes_enter limit).bind fun _ => Closes.bind closes_get fun _ =>
        (closes_keyWith closes).bind fun _ => closes_leave
    case isFalse =>
    split
    case isTrue => exact Closes.bind closes_stringToken fun _ => closes_pure _
    case isFalse =>
    split
    case isTrue => exact closes_literal _
    case isFalse =>
    split
    case isTrue => exact closes_literal _
    case isFalse =>
    split
    case isTrue => exact closes_literal _
    case isFalse =>
    split
    case isTrue => exact Closes.bind closes_numeral fun _ => closes_pure _
    case isFalse => exact closes_fail (unexpected_closed _)

theorem closes_skip (limit : Nat) : Closes (skip limit) := by
  have within (levels : Nat) : Closes (skipWithin limit levels) := by
    induction levels with
    | zero => exact closes_skipUsing (closes_pure _)
    | succ levels ih => exact closes_skipUsing ih
  exact Closes.bind closes_get fun _ => within _

theorem closes_readArray (closes : Closes item) : Closes (readArray limit item) :=
  ((closes_expect _ _).bind fun _ => closes_enter limit).bind fun _ =>
    (closes_elements closes).bind fun _ => Closes.bind closes_leave fun _ => closes_pure _

theorem closes_membersFrom {field : Nat → ρ → Read ρ} {seen : List Nat} {record : ρ}
    (closes : ∀ index record, Closes (field index record)) :
    Closes (membersFrom limit names field budget seen record) := by
  induction budget generalizing seen record with
  | zero => exact closes_fail rfl
  | succ budget ih =>
    have search : Closes (key limit names seen.length) :=
      Closes.bind closes_get fun _ => closes_keyWith (closes_skip limit)
    apply search.bind
    intro found
    split
    case h_1 => exact closes_pure _
    case h_2 index =>
      split
      case isTrue => exact Closes.bind closes_get fun _ => closes_failAt _ _ rfl
      case isFalse => exact (closes index record).bind fun _ => ih

theorem closes_readObject {field : Nat → ρ → Read ρ} {record : ρ}
    (closes : ∀ index record, Closes (field index record)) :
    Closes (readObject limit names field record) := by
  refine ((closes_expect _ _).bind fun _ => closes_enter limit).bind fun _ =>
    Closes.bind closes_get fun _ => (closes_membersFrom closes).bind fun _ =>
      Closes.bind closes_leave fun _ => ?_
  split
  case h_1 => exact Closes.bind closes_get fun _ => closes_failAt _ _ rfl
  case h_2 => exact closes_pure _

/-- Finishing finds open containers only where some are open. -/
theorem finish_closes {options : Options} {before after : Reader} {error : Error}
    (closed : before.depth = 0) (failed : (finish options).run before = .error error after) :
    error.cause.isUnclosed = false := by
  rw [finish, EStateM.run_bind, EStateM.run_get] at failed
  simp only [closed, ne_eq, not_true_eq_false, if_false] at failed
  split at failed
  case isTrue => contradiction
  case isFalse =>
    refine Closes.bind closes_peekToken (fun head => ?_) failed
    cases head with
    | none => exact closes_pure ()
    | some byte => exact closes_fail rfl

end Reader

open Reader

mutual
theorem Schema.closes_readInto (limit : Nat) : ∀ (schema : Schema) (target : schema.Value),
    Closes (schema.readInto limit target)
  | .boolean, _ => closes_boolean
  | .integer type, _ => closes_integer type
  | .real, _ => closes_real
  | .string, _ => closes_string
  | .binary width, _ => closes_binary width
  | .enumeration names, _ => closes_enumeration names
  | .array element, _ => closes_readArray (element.closes_readInto limit element.default)
  | .object fields, _ => closes_readObject (fields.closes_readAt limit)

theorem Fields.closes_readAt (limit : Nat) :
    ∀ (fields : Fields) (index : Nat) (record : fields.Record),
      Closes (fields.readAt limit index record)
  | .nil, _, record => closes_pure record
  | .cons _ schema _, 0, (value, _) => (schema.closes_readInto limit value).bind fun _ =>
    closes_pure _
  | .cons _ _ rest, index + 1, (_, others) => (rest.closes_readAt limit index others).bind fun _ =>
    closes_pure _
end

end TypedJson
