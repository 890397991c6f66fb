import TypedJson.Proofs.Writer.Session

/-! Refused calls. Whatever a call is refused for is found before the writer is touched: a check that
may fail comes first, and all that comes after it succeeds. So a refused call leaves the writer as it
was, and a run of calls comes to the same without it. -/
namespace TypedJson.Writer

variable {α β : Type}

/-- Nothing that a step writes makes it fail. -/
def Succeeds (step : Write α) : Prop :=
  ∀ writer, ∃ value after, step.run writer = .ok value after

/-- Where a step fails, it has changed nothing and reports the end of the text. -/
def Atomic (step : Write α) : Prop := ∀ ⦃writer error after⦄,
  step.run writer = .error error after → after = writer ∧ error.offset = writer.text.size

theorem succeeds_pure (value : α) : Succeeds (pure value) := fun writer => ⟨value, writer, rfl⟩

theorem succeeds_modify (f : Writer → Writer) : Succeeds (modify f) :=
  fun writer => ⟨(), f writer, rfl⟩

theorem Succeeds.bind {step : Write α} {k : α → Write β} (first : Succeeds step)
    (following : ∀ value, Succeeds (k value)) : Succeeds (step >>= k) := by
  intro writer
  obtain ⟨value, middle, run⟩ := first writer
  obtain ⟨result, after, run'⟩ := following value middle
  refine ⟨result, after, ?_⟩
  rw [EStateM.run_bind, run]
  exact run'

theorem Succeeds.atomic {step : Write α} (succeeds : Succeeds step) : Atomic step := by
  intro writer error after failed
  obtain ⟨value, last, run⟩ := succeeds writer
  rw [run] at failed
  contradiction

theorem atomic_fail (cause : Cause) (context : Option String) :
    Atomic (fail cause context : Write α) := by
  intro writer error after failed
  obtain ⟨rfl, rfl⟩ := EStateM.Result.error.inj failed
  exact ⟨rfl, rfl⟩

/-- Looking at the writer does not touch it. -/
theorem atomic_get_bind {k : Writer → Write α} (following : ∀ writer, Atomic (k writer)) :
    Atomic (get >>= k) :=
  fun writer _ _ failed => following writer failed

/-- Only the first part of a step may fail. -/
theorem Atomic.bind {step : Write α} {k : α → Write β} (first : Atomic step)
    (following : ∀ value, Succeeds (k value)) : Atomic (step >>= k) := by
  intro writer error after failed
  rw [EStateM.run_bind] at failed
  cases run : step.run writer with
  | error found last =>
    rw [run] at failed
    obtain ⟨rfl, rfl⟩ := EStateM.Result.error.inj failed
    exact first run
  | ok value middle =>
    rw [run] at failed
    obtain ⟨result, last, run'⟩ := following value middle
    change (k value).run middle = _ at failed
    rw [run'] at failed
    contradiction

theorem succeeds_separate (count : Nat) : Succeeds (separate count) := by
  rw [separate]
  split
  case isTrue => exact succeeds_modify _
  case isFalse => exact succeeds_pure _

theorem atomic_beginValue : Atomic beginValue := by
  apply atomic_get_bind
  intro writer
  split
  case h_1 =>
    apply atomic_get_bind
    intro writer
    split
    case isTrue => exact atomic_fail _ _
    case isFalse => exact (succeeds_pure _).atomic
  case h_2 => exact ((succeeds_separate _).bind fun _ => succeeds_modify _).atomic
  case h_3 => exact (succeeds_modify _).atomic
  case h_4 => exact atomic_fail _ _

theorem atomic_scalar (token : List UInt8) : Atomic (scalar token) :=
  Atomic.bind atomic_beginValue fun _ => (succeeds_modify _).bind fun _ => succeeds_modify _

theorem atomic_openScope (bracket : UInt8) (scope : Scope) : Atomic (openScope bracket scope) :=
  Atomic.bind atomic_beginValue fun _ => succeeds_modify _

theorem succeeds_closeScope (bracket : UInt8) : Succeeds (closeScope bracket) :=
  (succeeds_modify _).bind fun _ => succeeds_modify _

theorem atomic_real (value : Binary64) : Atomic (real value) := by
  rw [real]
  split
  case isTrue => exact atomic_scalar _
  case isFalse => exact atomic_fail _ _

theorem atomic_enumeration (index : Nat) (names : List String) :
    Atomic (enumeration index names) := by
  rw [enumeration]
  split
  case h_1 => exact atomic_scalar _
  case h_2 => exact atomic_fail _ _

theorem atomic_closeArray : Atomic closeArray := by
  apply atomic_get_bind
  intro writer
  split
  case h_1 => exact (succeeds_closeScope _).atomic
  case h_2 => exact atomic_fail _ _

theorem atomic_closeObject : Atomic closeObject := by
  apply atomic_get_bind
  intro writer
  split
  case h_1 => exact (succeeds_closeScope _).atomic
  case h_2 => exact atomic_fail _ _

theorem atomic_key (name : String) : Atomic (key name) := by
  apply atomic_get_bind
  intro writer
  split
  case h_1 =>
    apply Succeeds.atomic
    exact (succeeds_separate _).bind fun _ => (succeeds_modify _).bind fun _ => succeeds_modify _
  case h_2 => exact atomic_fail _ _
  case h_3 => exact atomic_fail _ _

theorem atomic_take : Atomic take := by
  apply atomic_get_bind
  intro writer
  split
  case isTrue => exact Succeeds.atomic fun _ => ⟨_, _, rfl⟩
  case isFalse => exact atomic_fail _ _

theorem Call.atomic_run (call : Call) : Atomic call.run := by
  cases call with
  | boolean | integer | unsignedInteger | string | binary =>
    exact (atomic_scalar _).bind fun _ => succeeds_pure _
  | real value => exact (atomic_real value).bind fun _ => succeeds_pure _
  | enumeration index names => exact (atomic_enumeration index names).bind fun _ => succeeds_pure _
  | openArray | openObject => exact (atomic_openScope _ _).bind fun _ => succeeds_pure _
  | closeArray => exact Atomic.bind atomic_closeArray fun _ => succeeds_pure _
  | closeObject => exact Atomic.bind atomic_closeObject fun _ => succeeds_pure _
  | key name => exact (atomic_key name).bind fun _ => succeeds_pure _
  | take => exact Atomic.bind atomic_take fun _ => succeeds_pure _

namespace Session

/-- What a caller gets from a call: the document if one was taken, or an error. -/
abbrev Outcome := Except Error (Option (List UInt8))

variable {session : Session} {call : Call} {calls : List Call} {kept : List (Call × Outcome)}

def outcome (session : Session) (call : Call) : Outcome :=
  match call.run.run session.writer with
  | .ok document _ => .ok document
  | .error error _ => .error error

/-- Some calls in turn, with what each of them comes to. -/
def history (session : Session) : List Call → List (Call × Outcome)
  | [] => []
  | call :: calls => (call, session.outcome call) :: (session.after call).history calls

def succeeded (entry : Call × Outcome) : Bool := entry.2.toBool

theorem after_of_refused (refused : succeeded (call, session.outcome call) = false) :
    session.after call = session := by
  rw [succeeded, outcome] at refused
  rw [after]
  cases run : call.run.run session.writer with
  | ok document writer =>
    rw [run] at refused
    contradiction
  | error error writer =>
    obtain ⟨rfl, _⟩ := call.atomic_run run
    rfl

/-- A refused call is followed by what would follow without it, so any of them can be left out. -/
theorem history_kept (part : kept.Sublist (session.history calls))
    (successes : kept.filter succeeded = (session.history calls).filter succeeded) :
    session.history (kept.map Prod.fst) = kept ∧
      (kept.map Prod.fst).foldl after session = calls.foldl after session := by
  induction calls generalizing session kept with
  | nil =>
    obtain rfl := List.sublist_nil.mp part
    exact ⟨rfl, rfl⟩
  | cons call calls ih =>
    rw [history] at part successes
    cases part with
    | cons _ part =>
      cases refused : succeeded (call, session.outcome call) with
      | true =>
        have shorter := (part.filter succeeded).length_le
        rw [successes, List.filter_cons_of_pos refused, List.length_cons] at shorter
        omega
      | false =>
        rw [List.filter_cons_of_neg (by simp [refused])] at successes
        rw [after_of_refused refused] at part successes
        rw [List.foldl_cons, after_of_refused refused]
        exact ih part successes
    | @cons_cons kept _ _ part =>
      have following : kept.filter succeeded =
          ((session.after call).history calls).filter succeeded := by
        cases accepted : succeeded (call, session.outcome call) with
        | true =>
          rw [List.filter_cons_of_pos accepted, List.filter_cons_of_pos accepted] at successes
          exact (List.cons.inj successes).2
        | false =>
          have refused : ¬succeeded (call, session.outcome call) = true := by simp [accepted]
          rwa [List.filter_cons_of_neg refused, List.filter_cons_of_neg refused] at successes
      obtain ⟨same, last⟩ := ih part following
      exact ⟨congrArg ((call, session.outcome call) :: ·) same, last⟩

/-- Whatever calls were made, one that fails leaves the text, the open containers and what is known
of them as they were, and reports the end of the text. So where some of the failed calls of a run are
left out, every other call comes to what it came to, the documents that are taken among them, and the
run ends alike. -/
theorem refused_without_trace (calls : List Call) :
    (∀ (call : Call) (error : Error) (writer : Writer),
      call.run.run (run calls).writer = .error error writer →
        writer = (run calls).writer ∧ error.offset = (run calls).writer.text.size) ∧
    ∀ kept : List (Call × Outcome), kept.Sublist (start.history calls) →
      kept.filter succeeded = (start.history calls).filter succeeded →
        start.history (kept.map Prod.fst) = kept ∧ run (kept.map Prod.fst) = run calls := by
  constructor
  · intro call error writer failed
    exact call.atomic_run failed
  · intro kept part successes
    exact history_kept part successes

/-- In the array `[true` a key and an end of an object are refused. Left out, they are not missed: the
document is still refused as long as the array is open, at the same place, and then taken. -/
theorem refused_without_trace_array :
    (∃ error writer, (Call.key "a").run.run (run [.openArray, .boolean true]).writer =
      .error error writer ∧ writer = (run [.openArray, .boolean true]).writer ∧ error.offset = 5) ∧
    start.history [.openArray, .boolean true, .take, .closeArray, .take] =
      [(.openArray, .ok none), (.boolean true, .ok none),
        (.take, .error ⟨Misuse.incomplete 1, none, 5⟩), (.closeArray, .ok none),
        (.take, .ok (some [0x5b, 0x74, 0x72, 0x75, 0x65, 0x5d]))] := by
  constructor
  · obtain ⟨unchanged, _⟩ := refused_without_trace [.openArray, .boolean true]
    exact ⟨_, _, rfl, unchanged (.key "a") _ _ rfl⟩
  · obtain ⟨_, spared⟩ := refused_without_trace
      [.openArray, .boolean true, .key "a", .take, .closeObject, .closeArray, .take]
    refine (spared [(.openArray, .ok none), (.boolean true, .ok none),
      (.take, .error ⟨Misuse.incomplete 1, none, 5⟩), (.closeArray, .ok none),
      (.take, .ok (some [0x5b, 0x74, 0x72, 0x75, 0x65, 0x5d]))] ?_ rfl).1
    exact .cons_cons _ (.cons_cons _ (.cons _ (.cons_cons _ (.cons _ (.cons_cons _ (.cons_cons _
      .slnil))))))

end Session

end TypedJson.Writer
