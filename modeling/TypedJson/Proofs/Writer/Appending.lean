import Mathlib.Data.List.Forall2
import TypedJson.Proofs.Writer.Placement

/-! Writing from any state in which a value may come next, whatever led to it. A value adds its text
there, after a comma where one is due, and of the containers around it only the counts change. What
writes a container is made of what writes its entries, so this is kept from the parts to the whole;
so is the failure of the first part that has no text. -/
namespace TypedJson

/-- The kind of container that is open. -/
def Scope.container : Scope → Container
  | .array _ => .array
  | .object _ _ => .object

/-- The container once its next value is written. -/
def Scope.filled : Scope → Scope
  | .array count => .array (count + 1)
  | .object count _ => .object count false

/-- A part of a value that has no text. -/
inductive Flaw where
  | notFinite (value : Binary64)
  | unnamed (index : Nat) (names : List String)

namespace Flaw

def cause : Flaw → SchemaError
  | .notFinite _ => .number
  | .unnamed _ _ => .enumeration

def context : Flaw → String
  | .notFinite value => s!"{value.nonFiniteName} is not representable"
  | .unnamed index names => s!"index {index} is outside of {names.length} names"

/-- The flaw, found where the text written so far ends. -/
def error (flaw : Flaw) (writer : Writer) : Error :=
  ⟨flaw.cause, some flaw.context, writer.text.size⟩

end Flaw

namespace Writer

/-- Whether a value may come next: as the first outside of all containers, in an array, or after a
key. -/
def awaits (writer : Writer) : Bool :=
  match writer.scopes with
  | [] => !writer.complete
  | .array _ :: _ => true
  | .object _ pending :: _ => pending

/-- What stands before an entry of a container that has `count` others before it. -/
def comma (count : Nat) : List UInt8 := if count ≠ 0 then [Ascii.comma] else []

/-- What stands before the next value. The comma before a member is written with its key. -/
def separator (writer : Writer) : List UInt8 :=
  match writer.scopes with
  | .array count :: _ => comma count
  | _ => []

/-- The writer with one more value. -/
def withValue (text : List UInt8) (writer : Writer) : Writer :=
  ⟨writer.text ++ (writer.separator ++ text), writer.scopes.modifyHead Scope.filled,
    writer.complete || writer.scopes.isEmpty⟩

/-- The entries of a container that has `count` others before them. -/
def entries : Nat → List (List UInt8) → List UInt8
  | _, [] => []
  | count, text :: rest => comma count ++ text ++ entries (count + 1) rest

/-- Wherever a value may come next, a step writes one with this text. -/
def Appends (step : Write Unit) (text : List UInt8) : Prop :=
  ∀ ⦃writer : Writer⦄, writer.awaits = true → step.run writer = .ok () (writer.withValue text)

/-- Wherever a value may come next, a step comes upon this flaw. -/
def Fails (step : Write Unit) (flaw : Flaw) : Prop :=
  ∀ ⦃writer : Writer⦄, writer.awaits = true →
    ∃ last, step.run writer = .error (flaw.error last) last

variable {α : Type} {step : Write Unit} {write : α → Write Unit} {values : List α}
  {texts : List (List UInt8)} {written : Array UInt8} {scopes outer : List Scope} {complete : Bool}
  {count : Nat} {flaw : Flaw} {bracket : UInt8} {scope : Scope}

theorem entries_eq (texts : List (List UInt8)) : entries 0 texts = Tree.separated texts := by
  have following : ∀ (texts : List (List UInt8)) (count : Nat),
      entries (count + 1) texts = texts.flatMap (Ascii.comma :: ·) := by
    intro texts
    induction texts with
    | nil => exact fun _ => rfl
    | cons text texts ih =>
      intro count
      rw [entries, ih, List.flatMap_cons]
      rfl
  cases texts with
  | nil => rfl
  | cons text texts =>
    rw [entries, following, Tree.separated_cons]
    rfl

theorem append_append (written : Array UInt8) (first second : List UInt8) :
    written ++ first ++ second = written ++ (first ++ second) := by
  apply Array.ext'
  simp only [Array.toList_appendList, List.append_assoc]

theorem run_bind_of_ok {β γ : Type} {m : Write β} {k : β → Write γ} {value : β}
    {writer middle : Writer} (first : m.run writer = .ok value middle) :
    (m >>= k).run writer = (k value).run middle := by
  rw [EStateM.run_bind, first]

/-! Single tokens -/

theorem beginValue_run {writer : Writer} (awaits : writer.awaits = true) :
    beginValue.run writer = .ok () ⟨writer.text ++ writer.separator,
      writer.scopes.modifyHead Scope.filled, writer.complete⟩ := by
  obtain ⟨text, scopes, complete⟩ := writer
  rcases scopes with _ | ⟨⟨count⟩ | ⟨count, pending⟩, outer⟩
  · obtain rfl : complete = false := by simpa [Writer.awaits] using awaits
    simp [separator]
    rfl
  · change (separate count >>= fun _ => setScopes _).run _ = _
    rw [run_bind_of_ok (separate_run count _)]
    rfl
  · obtain rfl : pending = true := awaits
    simp [separator]
    rfl

theorem endValue_run (written : Array UInt8) (scopes : List Scope) (complete : Bool) :
    endValue.run ⟨written, scopes, complete⟩ =
      .ok () ⟨written, scopes, complete || scopes.isEmpty⟩ := by
  cases scopes <;> cases complete <;> rfl

theorem isEmpty_modifyHead (scopes : List Scope) :
    (scopes.modifyHead Scope.filled).isEmpty = scopes.isEmpty := by
  cases scopes <;> rfl

theorem containers_withValue (text : List UInt8) (writer : Writer) :
    (writer.withValue text).scopes.map Scope.container = writer.scopes.map Scope.container := by
  obtain ⟨written, scopes, complete⟩ := writer
  rcases scopes with _ | ⟨_ | _, outer⟩ <;> rfl

theorem appends_scalar (token : List UInt8) : Appends (scalar token) token := by
  intro writer awaits
  rw [scalar, run_bind_of_ok (beginValue_run awaits)]
  change endValue.run ⟨writer.text ++ writer.separator ++ token, _, _⟩ = _
  rw [endValue_run, append_append, isEmpty_modifyHead]
  rfl

/-! Containers -/

theorem openScope_run {writer : Writer} (awaits : writer.awaits = true) :
    (openScope bracket scope).run writer = .ok () ⟨writer.text ++ (writer.separator ++ [bracket]),
      scope :: writer.scopes.modifyHead Scope.filled, writer.complete⟩ := by
  rw [openScope, run_bind_of_ok (beginValue_run awaits), ← append_append]
  rfl

theorem close_run : (closeScope bracket).run ⟨written, scope :: outer, complete⟩ =
    .ok () ⟨written ++ [bracket], outer, complete || outer.isEmpty⟩ :=
  endValue_run (written ++ [bracket]) outer complete

/-- What stands between the brackets is written inside, and the container is then one value. -/
theorem appends_container {body : Write Unit} {text : List UInt8} {first last : Scope}
    {openBracket closeBracket : UInt8} {close : Write Unit}
    (inside : ∀ written outer complete, body.run ⟨written, first :: outer, complete⟩ =
      .ok () ⟨written ++ text, last :: outer, complete⟩)
    (closes : ∀ written outer complete, close.run ⟨written, last :: outer, complete⟩ =
      (closeScope closeBracket).run ⟨written, last :: outer, complete⟩) :
    Appends (openScope openBracket first >>= fun _ => body >>= fun _ => close)
      (openBracket :: text ++ [closeBracket]) := by
  intro writer awaits
  rw [run_bind_of_ok (openScope_run awaits), run_bind_of_ok (inside _ _ _), closes, close_run,
    isEmpty_modifyHead, append_append, append_append, List.append_assoc]
  rfl

theorem append_nil (written : Array UInt8) : written ++ ([] : List UInt8) = written := by
  apply Array.ext'
  simp only [Array.toList_appendList, List.append_nil]

theorem withValue_inside {text : List UInt8} : withValue text ⟨written, scope :: outer, complete⟩ =
    ⟨written ++ (separator ⟨written, scope :: outer, complete⟩ ++ text), scope.filled :: outer,
      complete⟩ :=
  congrArg (Writer.mk _ _) (Bool.or_false complete)

theorem elements_run
    (each : List.Forall₂ (fun value text => Appends (write value) text) values texts) :
    (values.forM write).run ⟨written, .array count :: outer, complete⟩ =
      .ok () ⟨written ++ entries count texts, .array (count + texts.length) :: outer, complete⟩ := by
  induction each generalizing written count with
  | nil =>
    rw [entries, append_nil]
    rfl
  | @cons value text values texts first _ ih =>
    change (write value >>= fun _ => values.forM write).run _ = _
    rw [run_bind_of_ok (first rfl), withValue_inside, Scope.filled, ih, append_append, entries,
      List.length_cons, Nat.add_right_comm count, Nat.add_assoc]
    rfl

theorem key_run (name : String) :
    (key name).run ⟨written, .object count false :: outer, complete⟩ =
      .ok () ⟨written ++ (comma count ++ (Escape.quoted name.toList ++ [Ascii.colon])),
        .object (count + 1) true :: outer, complete⟩ := by
  change (separate count >>= fun _ => modify (append _) >>= fun _ => setScopes _).run _ = _
  rw [run_bind_of_ok (separate_run count _), ← append_append]
  rfl

/-- A key and its value are one more member. -/
theorem member_run {step : Write Unit} {text : List UInt8} (name : String)
    (appends : Appends step text) :
    (key name >>= fun _ => step).run ⟨written, .object count false :: outer, complete⟩ =
      .ok () ⟨written ++ (comma count ++ Tree.named name text),
        .object (count + 1) false :: outer, complete⟩ := by
  rw [run_bind_of_ok (key_run name), appends rfl, withValue_inside, append_append,
    List.append_assoc, List.append_assoc]
  rfl

/-! Flaws -/

theorem fails_container {body close : Write Unit} {first : Scope}
    (inside : ∀ written outer complete, ∃ last,
      body.run ⟨written, first :: outer, complete⟩ = .error (flaw.error last) last) :
    Fails (openScope bracket first >>= fun _ => body >>= fun _ => close) flaw := by
  intro writer awaits
  obtain ⟨last, failed⟩ := inside (writer.text ++ (writer.separator ++ [bracket]))
    (writer.scopes.modifyHead Scope.filled) writer.complete
  refine ⟨last, ?_⟩
  rw [run_bind_of_ok (openScope_run awaits), run_bind_error failed]

/-- The elements before the first flaw are written. -/
theorem elements_fail {flaw? : α → Option Flaw}
    (appends : ∀ value, flaw? value = none → ∃ text, Appends (write value) text)
    (fails : ∀ value flaw, flaw? value = some flaw → Fails (write value) flaw)
    (found : values.findSome? flaw? = some flaw) :
    ∃ last, (values.forM write).run ⟨written, .array count :: outer, complete⟩ =
      .error (flaw.error last) last := by
  induction values generalizing written count with
  | nil => contradiction
  | cons value values ih =>
    have awaits : (⟨written, .array count :: outer, complete⟩ : Writer).awaits = true := rfl
    change ∃ last, (write value >>= fun _ => values.forM write).run _ = _
    rw [List.findSome?_cons] at found
    cases first : flaw? value with
    | some other =>
      rw [first] at found
      obtain rfl := Option.some.inj found
      obtain ⟨last, failed⟩ := fails value other first awaits
      exact ⟨last, run_bind_error failed⟩
    | none =>
      rw [first] at found
      obtain ⟨text, appends⟩ := appends value first
      rw [run_bind_of_ok (appends awaits), withValue_inside]
      exact ih found

end Writer

end TypedJson
