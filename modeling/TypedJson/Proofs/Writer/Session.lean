import TypedJson.Proofs.Reader.Skip
import TypedJson.Proofs.Writer.Rendering
import TypedJson.Proofs.Writer.Simulation

/-! Runs of calls on one writer, in any order and with refused calls among them. The writer stays
that of a draft whose events are the calls accepted since a document was last taken, so what is
taken is the text of the one value they describe. -/
namespace TypedJson.Writer
open Grammar

/-- A call on a writer, with its arguments. -/
inductive Call where
  | boolean (value : Bool)
  | integer (value : BoundedInt .int64)
  | unsignedInteger (value : BoundedInt .uint64)
  | real (value : Binary64)
  | string (value : String)
  | binary (bytes : List UInt8)
  | enumeration (index : Nat) (names : List String)
  | openArray
  | closeArray
  | openObject
  | closeObject
  | key (name : String)
  | take

namespace Call

/-- What a call does to the writer; only taking hands out a document. -/
def run : Call → Write (Option (List UInt8))
  | .boolean value => do Writer.boolean value; return none
  | .integer value => do Writer.integer value.value; return none
  | .unsignedInteger value => do Writer.integer value.value; return none
  | .real value => do Writer.real value; return none
  | .string value => do Writer.string value; return none
  | .binary bytes => do Writer.binary bytes; return none
  | .enumeration index names => do Writer.enumeration index names; return none
  | .openArray => do Writer.openArray; return none
  | .closeArray => do Writer.closeArray; return none
  | .openObject => do Writer.openObject; return none
  | .closeObject => do Writer.closeObject; return none
  | .key name => do Writer.key name; return none
  | .take => do return some (← Writer.take)

/-- What a call adds to a document, if its arguments have a text. -/
def event? : Call → Option Event
  | .boolean value => some (.leaf (.boolean value))
  | .integer value => some (.leaf (.integer value.value))
  | .unsignedInteger value => some (.leaf (.integer value.value))
  | .real value => if finite : value.isFinite = true then some (.leaf (.real value finite)) else none
  | .string value => some (.leaf (.string value))
  | .binary bytes => some (.leaf (.binary bytes))
  | .enumeration index names => names[index]?.map fun name => .leaf (.string name)
  | .openArray => some .openArray
  | .closeArray => some .closeArray
  | .openObject => some .openObject
  | .closeObject => some .closeObject
  | .key name => some (.key name)
  | .take => none

/-- What a call on the writer of a draft comes to. -/
inductive Effect (draft : Draft) (call : Call) :
    EStateM.Result Error Writer (Option (List UInt8)) → Prop where
  | accepted : call.event? = some event → draft.step event = some next →
      Effect draft call (.ok none next.writer)
  | taken : call = .take → draft = .finished tree →
      Effect draft call (.ok (some tree.render) .empty)
  | refused : (∀ event, call.event? = some event → draft.step event = none) →
      (call = .take → ∀ tree, draft ≠ .finished tree) →
      Effect draft call (.error error draft.writer)

variable {draft : Draft} {call : Call} {event : Event} {m : Write Unit}

theorem effect_of_writes (runs : call.run = m >>= fun _ => pure none)
    (adds : call.event? = some event) (writes : Writes m event) (notTake : call ≠ .take) :
    Effect draft call (call.run.run draft.writer) := by
  rw [runs, EStateM.run_bind]
  obtain ⟨next, steps, run⟩ | ⟨steps, error, run⟩ := writes draft
  · rw [run]
    exact .accepted adds steps
  · rw [run]
    refine .refused (fun other same => ?_) fun isTake => absurd isTake notTake
    rw [adds] at same
    rwa [← Option.some.inj same]

/-- Arguments without a text are refused before the place for a value is looked at. -/
theorem effect_of_failed (adds : call.event? = none) (notTake : call ≠ .take)
    (failed : ∃ error, call.run.run draft.writer = .error error draft.writer) :
    Effect draft call (call.run.run draft.writer) := by
  obtain ⟨error, failed⟩ := failed
  rw [failed]
  refine .refused (fun event same => ?_) fun isTake => absurd isTake notTake
  rw [adds] at same
  contradiction

theorem run_effect (draft : Draft) (call : Call) :
    Effect draft call (call.run.run draft.writer) := by
  cases call with
  | boolean value => exact effect_of_writes rfl rfl (writes_scalar (.boolean value)) nofun
  | integer value => exact effect_of_writes rfl rfl (writes_scalar (.integer value.value)) nofun
  | unsignedInteger value =>
    exact effect_of_writes rfl rfl (writes_scalar (.integer value.value)) nofun
  | real value =>
    by_cases finite : value.isFinite = true
    · refine effect_of_writes ?_ (dif_pos finite) (writes_scalar (.real value finite)) nofun
      rw [run, Writer.real, if_pos finite]
      rfl
    · refine effect_of_failed (dif_neg finite) nofun ?_
      rw [run, Writer.real, if_neg finite]
      exact ⟨_, rfl⟩
  | string value => exact effect_of_writes rfl rfl (writes_scalar (.string value)) nofun
  | binary bytes => exact effect_of_writes rfl rfl (writes_scalar (.binary bytes)) nofun
  | enumeration index names =>
    cases named : names[index]? with
    | none =>
      refine effect_of_failed (by rw [event?, named, Option.map_none]) nofun ?_
      rw [run, Writer.enumeration, named]
      exact ⟨_, rfl⟩
    | some name =>
      refine effect_of_writes ?_ (by rw [event?, named, Option.map_some])
        (writes_scalar (.string name)) nofun
      rw [run, Writer.enumeration, named]
      rfl
  | openArray => exact effect_of_writes rfl rfl writes_openArray nofun
  | closeArray => exact effect_of_writes rfl rfl writes_closeArray nofun
  | openObject => exact effect_of_writes rfl rfl writes_openObject nofun
  | closeObject => exact effect_of_writes rfl rfl writes_closeObject nofun
  | key name => exact effect_of_writes rfl rfl (writes_key name) nofun
  | take =>
    rw [run, EStateM.run_bind]
    obtain ⟨tree, rfl, taken⟩ | ⟨unfinished, error, failed⟩ := take_run draft
    · rw [taken]
      exact .taken rfl rfl
    · rw [failed]
      exact .refused nofun fun _ => unfinished

end Call

/-- A writer and the calls it accepted since a document was last taken from it. -/
structure Session where
  writer : Writer
  accepted : List Call

namespace Session

def start : Session := ⟨.empty, []⟩

/-- The session after one more call. A refused call leaves whatever writer it leaves. -/
def after (session : Session) (call : Call) : Session :=
  match call.run.run session.writer with
  | .ok none writer => ⟨writer, session.accepted ++ [call]⟩
  | .ok (some _) writer => ⟨writer, []⟩
  | .error _ writer => ⟨writer, session.accepted⟩

/-- The session after some calls on a fresh writer. -/
def run (calls : List Call) : Session := calls.foldl after start

/-- The writer is that of the draft, and the accepted calls are its events. -/
def Matches (session : Session) (draft : Draft) : Prop :=
  session.writer = draft.writer ∧ session.accepted.map Call.event? = draft.events.map some

variable {session : Session} {draft : Draft} {call : Call}

theorem Matches.after (same : Matches session draft) :
    ∃ next, Matches (session.after call) next := by
  obtain ⟨writer, accepted⟩ := same
  have effect := call.run_effect draft
  rw [← writer] at effect
  rw [Session.after]
  generalize call.run.run session.writer = result at effect
  cases effect with
  | @accepted event next adds steps =>
    refine ⟨next, rfl, ?_⟩
    rw [List.map_append, accepted, Draft.step_events steps, List.map_append, List.map_singleton,
      List.map_singleton, adds]
  | taken => exact ⟨.awaiting [], rfl, rfl⟩
  | refused => exact ⟨draft, rfl, accepted⟩

theorem run_matches (calls : List Call) : ∃ draft, Matches (run calls) draft := by
  have all : ∀ session draft, Matches session draft →
      ∃ next, Matches (calls.foldl Session.after session) next := by
    induction calls with
    | nil => exact fun session draft same => ⟨draft, same⟩
    | cons call calls ih =>
      intro session draft same
      obtain ⟨next, same⟩ := same.after
      exact ih _ next same
  exact all start (.awaiting []) ⟨rfl, rfl⟩

/-- Whatever calls were made, a document that is taken is the minified text of the one value that
the calls accepted since the last one describe; skipping accepts it at every limit its nesting
allows, and the writer is left as a fresh one. -/
theorem taken_document (calls : List Call) (document : List UInt8) (writer : Writer)
    (taken : take.run (run calls).writer = .ok document writer) :
    ∃ tree : Tree, document = tree.render ∧
      (∀ other : Tree, (run calls).accepted.map Call.event? = other.events.map some ↔
        other = tree) ∧
      (∀ options : Reader.Options, tree.nesting = 0 ∨ tree.nesting < options.depthLimit →
        ∃ after, (do Reader.skip options.depthLimit; Reader.finish options).run
          (Reader.ofBytes document) = .ok () after) ∧
      writer = .empty := by
  obtain ⟨draft, same, accepted⟩ := run_matches calls
  rw [same] at taken
  obtain ⟨tree, rfl, handed⟩ | ⟨_, error, failed⟩ := take_run draft
  · rw [handed] at taken
    obtain ⟨rfl, rfl⟩ := EStateM.Result.ok.inj taken
    refine ⟨tree, rfl, ?_, ?_, rfl⟩
    · intro other
      rw [accepted]
      constructor
      · intro events
        have same := List.map_injective_iff.mpr (fun _ _ => Option.some.inj) events
        exact (Draft.events_injective same).symm
      · rintro rfl
        rfl
    · intro options bound
      exact Reader.skips_document options tree.render_document bound
  · rw [failed] at taken
    contradiction

/-- A document is taken, a key is refused outside of an object and the next document is refused as
long as it is open; then it is taken too. -/
theorem taken_document_reused : ∃ tree : Tree, [0x5b, 0x74, 0x72, 0x75, 0x65, 0x5d] = tree.render ∧
    tree.events = [.openArray, .leaf (.boolean true), .closeArray] ∧
    ∃ after, (do Reader.skip 2; Reader.finish ⟨2, false⟩).run
      (Reader.ofBytes [0x5b, 0x74, 0x72, 0x75, 0x65, 0x5d]) = .ok () after := by
  obtain ⟨tree, text, described, skips, _⟩ := taken_document
    [.boolean false, .take, .openArray, .key "a", .boolean true, .take, .closeArray]
    [0x5b, 0x74, 0x72, 0x75, 0x65, 0x5d] .empty rfl
  have same : Tree.array [.leaf (.boolean true)] = tree := (described _).mp rfl
  exact ⟨tree, text, same ▸ rfl, skips ⟨2, false⟩ (.inr (same ▸ by decide))⟩

end Session

end TypedJson.Writer
