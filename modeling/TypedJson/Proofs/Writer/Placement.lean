import TypedJson.Proofs.Writer.Session

/-! Where a call may stand. Every draft can be finished, so the events accepted so far are always
the beginning of a document, and an event is accepted exactly if some document goes on with it. Why
a call is refused is told by the events before it alone: by the containers they leave open and by
whether the last of them is a key. -/
namespace TypedJson

inductive Container where
  | array
  | object
deriving DecidableEq, Repr

namespace Event

/-- The containers that are open after one more event, the innermost first. -/
def openedBy (opened : List Container) : Event → List Container
  | .leaf _ | .key _ => opened
  | .openArray => .array :: opened
  | .openObject => .object :: opened
  | .closeArray | .closeObject => opened.tail

/-- The containers that some events leave open, the innermost first. -/
def opened (events : List Event) : List Container := events.foldl openedBy []

/-- The last event is a key, and its value is still to come. -/
def EndsInKey (events : List Event) : Prop := ∃ name, events.getLast? = some (.key name)

/-- Whether a value begins with the event. -/
def beginsValue : Event → Bool
  | .leaf _ | .openArray | .openObject => true
  | _ => false

end Event

namespace Draft

variable {draft next : Draft} {event : Event} {events : List Event}

/-! Every draft is reached by its events and can be finished. -/

theorem steps_frames (frames : List Frame) :
    (Draft.awaiting []).steps (framesEvents frames) = some (.awaiting frames) := by
  induction frames with
  | nil => rfl
  | cons frame outer ih =>
    simp only [framesEvents, steps_append, ih, Option.bind_some]
    cases frame with
    | array elements =>
      simp only [frameEvents, steps, step, Option.bind_some]
      exact steps_all outer [] elements
    | member members name =>
      simp only [frameEvents, List.cons_append, steps, step, Option.bind_some, steps_append,
        steps_members outer [] members, List.nil_append]

theorem steps_events (draft : Draft) : (Draft.awaiting []).steps draft.events = some draft := by
  cases draft with
  | awaiting frames => exact steps_frames frames
  | between members outer =>
    simp only [events, steps_append, steps_frames, Option.bind_some, steps, step]
    exact steps_members outer [] members
  | finished tree => exact steps_tree [] tree

/-- A value in its place is made a document by closing the containers around it. -/
theorem exists_document_put (tree : Tree) (frames : List Frame) :
    ∃ whole rest, Tree.events whole = (put tree frames).events ++ rest := by
  induction frames generalizing tree with
  | nil => exact ⟨tree, [], (List.append_nil _).symm⟩
  | cons frame outer ih =>
    cases frame with
    | array elements =>
      obtain ⟨whole, rest, same⟩ := ih (.array (elements ++ [tree]))
      have closed := @step_events (put tree (.array elements :: outer)) _ .closeArray rfl
      exact ⟨whole, .closeArray :: rest, by simp [same, closed]⟩
    | member members name =>
      obtain ⟨whole, rest, same⟩ := ih (.object (members ++ [(name, tree)]))
      have closed := @step_events (put tree (.member members name :: outer)) _ .closeObject rfl
      exact ⟨whole, .closeObject :: rest, by simp [same, closed]⟩

/-- Some document begins with the events of a draft. -/
theorem exists_document (draft : Draft) :
    ∃ whole rest, Tree.events whole = draft.events ++ rest := by
  cases draft with
  | awaiting frames =>
    obtain ⟨whole, rest, same⟩ := exists_document_put (.leaf (.boolean true)) frames
    exact ⟨whole, _ :: rest, by rw [same, put_events, List.append_assoc]; rfl⟩
  | between members outer =>
    obtain ⟨whole, rest, same⟩ := exists_document_put (.object members) outer
    have closed := @step_events (between members outer) _ .closeObject rfl
    exact ⟨whole, .closeObject :: rest, by simp [same, closed]⟩
  | finished tree => exact exists_document_put tree []

/-- An event can come next exactly if some document goes on with it. -/
theorem step_iff : (∃ next, draft.step event = some next) ↔
    ∃ (tree : Tree) (rest : List Event), tree.events = draft.events ++ event :: rest := by
  constructor
  · rintro ⟨next, steps⟩
    obtain ⟨tree, rest, same⟩ := next.exists_document
    exact ⟨tree, rest, by simp [same, step_events steps]⟩
  · rintro ⟨tree, rest, same⟩
    have whole := steps_tree [] tree
    simp only [same, steps_append, steps_events, Option.bind_some, Draft.steps] at whole
    obtain ⟨next, steps, _⟩ := Option.bind_eq_some_iff.mp whole
    exact ⟨next, steps⟩

/-- The events of a draft are those of a document exactly if it is finished. -/
theorem document_iff (tree : Tree) : tree.events = draft.events ↔ draft = .finished tree := by
  constructor
  · intro same
    have whole := steps_tree [] tree
    rw [same, steps_events] at whole
    exact Option.some.inj whole
  · rintro rfl
    rfl

/-! What is open in a draft -/

def containers : Draft → List Container
  | .awaiting frames => frames.map container
  | .between _ outer => .object :: outer.map container
  | .finished _ => []
where
  container : Frame → Container
    | .array _ => .array
    | .member _ _ => .object

theorem containers_put (tree : Tree) (frames : List Frame) :
    (put tree frames).containers = frames.map containers.container := by
  cases frames with
  | nil => rfl
  | cons frame outer => cases frame <;> rfl

theorem containers_step (steps : draft.step event = some next) :
    next.containers = event.openedBy draft.containers := by
  unfold step at steps
  split at steps <;> cases steps
  case h_1 | h_3 | h_5 => rw [containers_put]; rfl
  case h_2 | h_4 | h_6 => rfl

theorem containers_steps (run : draft.steps events = some next) :
    next.containers = events.foldl Event.openedBy draft.containers := by
  induction events generalizing draft with
  | nil => exact congrArg containers (Option.some.inj run).symm
  | cons event events ih =>
    obtain ⟨middle, first, run⟩ := Option.bind_eq_some_iff.mp run
    rw [ih run, containers_step first, List.foldl_cons]

theorem opened_events (draft : Draft) : Event.opened draft.events = draft.containers :=
  (containers_steps draft.steps_events).symm

theorem endsInKey_iff : Event.EndsInKey draft.events ↔
    ∃ members name outer, draft = .awaiting (.member members name :: outer) := by
  constructor
  · rintro ⟨name, last⟩
    obtain ⟨before, same⟩ := List.getLast?_eq_some_iff.mp last
    have run := draft.steps_events
    rw [same, steps_append] at run
    obtain ⟨middle, _, run⟩ := Option.bind_eq_some_iff.mp run
    obtain ⟨_, step, last⟩ := Option.bind_eq_some_iff.mp run
    obtain rfl := Option.some.inj last
    cases middle with
    | between members outer => exact ⟨members, name, outer, (Option.some.inj step).symm⟩
    | awaiting frames => rcases frames with _ | ⟨_ | _, _⟩ <;> contradiction
    | finished tree => contradiction
  · rintro ⟨members, name, outer, rfl⟩
    refine ⟨name, ?_⟩
    simp only [events, framesEvents, frameEvents, List.getLast?_append, List.getLast?_singleton,
      Option.some_or]

end Draft

namespace Writer

namespace Call

/-- The misuse that a refused call is after some events. All calls but those named write a value. -/
def Misplaced (events : List Event) (misuse : Misuse) : Call → Prop
  | .key _ => (Event.opened events).head? ≠ some .object ∧ misuse = .keyOutsideObject ∨
    Event.EndsInKey events ∧ misuse = .keyWithoutValue
  | .closeArray => (Event.opened events).head? ≠ some .array ∧ misuse = .mismatchedClose
  | .closeObject => ((Event.opened events).head? ≠ some .object ∨ Event.EndsInKey events) ∧
    misuse = .mismatchedClose
  | .take => misuse = .incomplete (Event.opened events).length
  | _ => ((Event.opened events).head? = some .object ∧ ¬Event.EndsInKey events) ∧
      misuse = .valueWithoutKey ∨
    (∃ root : Tree, root.events = events) ∧ misuse = .secondRoot

/-- The error of a refused call is a misuse, and the only one that the call is. -/
def Reports (draft : Draft) (call : Call) (error : Error) : Prop :=
  ∃ misuse : Misuse, error.cause = misuse ∧
    ∀ other, call.Misplaced draft.events other ↔ other = misuse

variable {draft : Draft} {call : Call} {event : Event} {error : Error} {writer last : Writer}

/-- A call that writes a value fails as taking the place for the value does. -/
theorem run_of_beginValue (adds : call.event? = some event) (begins : event.beginsValue = true)
    (failed : beginValue.run writer = .error error last) :
    call.run.run writer = .error error last := by
  cases call with
  | boolean | integer | unsignedInteger | string | binary | openArray | openObject =>
    exact run_bind_error (run_bind_error failed)
  | real value =>
    by_cases finite : value.isFinite = true
    · simp only [run, Writer.real, finite, if_true]
      exact run_bind_error (run_bind_error failed)
    · simp [event?, finite] at adds
  | enumeration index names =>
    obtain ⟨name, named, _⟩ := Option.map_eq_some_iff.mp adds
    simp only [run, Writer.enumeration, named]
    exact run_bind_error (run_bind_error failed)
  | closeArray | closeObject | key =>
    obtain rfl := Option.some.inj adds
    contradiction
  | take => contradiction

theorem misplaced_value (adds : call.event? = some event) (begins : event.beginsValue = true)
    (events : List Event) (misuse : Misuse) : call.Misplaced events misuse ↔
      ((Event.opened events).head? = some .object ∧ ¬Event.EndsInKey events) ∧
          misuse = .valueWithoutKey ∨
        (∃ root : Tree, root.events = events) ∧ misuse = .secondRoot := by
  cases call with
  | closeArray | closeObject | key =>
    obtain rfl := Option.some.inj adds
    contradiction
  | take => contradiction
  | _ => rfl

theorem reports_value (adds : call.event? = some event) (begins : event.beginsValue = true)
    (blocked : draft.step event = none) (failed : call.run.run draft.writer = .error error last) :
    Reports draft call error := by
  unfold Reports
  simp only [misplaced_value adds begins, Draft.opened_events, Draft.endsInKey_iff,
    Draft.document_iff]
  cases draft with
  | awaiting frames => cases event <;> contradiction
  | between members outer =>
    rw [run_of_beginValue adds begins rfl] at failed
    cases failed
    exact ⟨.valueWithoutKey, rfl, by simp [Draft.containers]⟩
  | finished tree =>
    rw [run_of_beginValue adds begins rfl] at failed
    cases failed
    exact ⟨.secondRoot, rfl, by simp [Draft.containers]⟩

theorem reports_key {name : String} (blocked : draft.step (.key name) = none)
    (failed : (key name).run.run draft.writer = .error error last) :
    Reports draft (key name) error := by
  unfold Reports
  simp only [Misplaced, Draft.opened_events, Draft.endsInKey_iff]
  cases draft with
  | awaiting frames =>
    rcases frames with _ | ⟨_ | _, outer⟩
    · cases failed
      exact ⟨.keyOutsideObject, rfl, by simp [Draft.containers]⟩
    · cases failed
      exact ⟨.keyOutsideObject, rfl, by simp [Draft.containers, Draft.containers.container]⟩
    · cases failed
      exact ⟨.keyWithoutValue, rfl, by simp [Draft.containers, Draft.containers.container]⟩
  | between members outer => contradiction
  | finished tree =>
    cases failed
    exact ⟨.keyOutsideObject, rfl, by simp [Draft.containers]⟩

theorem reports_closeArray (blocked : draft.step .closeArray = none)
    (failed : closeArray.run.run draft.writer = .error error last) :
    Reports draft closeArray error := by
  unfold Reports
  simp only [Misplaced, Draft.opened_events]
  cases draft with
  | awaiting frames =>
    rcases frames with _ | ⟨_ | _, outer⟩
    · cases failed
      exact ⟨.mismatchedClose, rfl, by simp [Draft.containers]⟩
    · contradiction
    · cases failed
      exact ⟨.mismatchedClose, rfl, by simp [Draft.containers, Draft.containers.container]⟩
  | between | finished =>
    cases failed
    exact ⟨.mismatchedClose, rfl, by simp [Draft.containers]⟩

theorem reports_closeObject (blocked : draft.step .closeObject = none)
    (failed : closeObject.run.run draft.writer = .error error last) :
    Reports draft closeObject error := by
  unfold Reports
  simp only [Misplaced, Draft.opened_events, Draft.endsInKey_iff]
  cases draft with
  | awaiting frames =>
    rcases frames with _ | ⟨_ | _, outer⟩
    · cases failed
      exact ⟨.mismatchedClose, rfl, by simp [Draft.containers]⟩
    · cases failed
      exact ⟨.mismatchedClose, rfl, by simp [Draft.containers, Draft.containers.container]⟩
    · cases failed
      exact ⟨.mismatchedClose, rfl, by simp [Draft.containers, Draft.containers.container]⟩
  | between members outer => contradiction
  | finished tree =>
    cases failed
    exact ⟨.mismatchedClose, rfl, by simp [Draft.containers]⟩

/-- What is not taken is reported with the number of containers still open. -/
theorem reports_take (unfinished : ∀ tree, draft ≠ .finished tree)
    (failed : take.run.run draft.writer = .error error last) : Reports draft take error := by
  unfold Reports
  simp only [Misplaced, Draft.opened_events]
  cases draft with
  | awaiting frames =>
    rcases frames with _ | ⟨frame, outer⟩
    · cases failed
      exact ⟨_, rfl, by simp [Draft.containers, depth, Draft.writer, empty]⟩
    · cases failed
      exact ⟨_, rfl, by simp [Draft.containers, depth, Draft.writer]⟩
  | between members outer =>
    cases failed
    exact ⟨_, rfl, by simp [Draft.containers, depth, Draft.writer]⟩
  | finished tree => exact absurd rfl (unfinished tree)

/-- A call has a text to write, or takes the document. -/
def Representable (call : Call) : Prop := call = .take ∨ ∃ event, call.event? = some event

theorem beginsValue_of_event? (adds : call.event? = some event) (notKey : ∀ name, call ≠ .key name)
    (notCloseArray : call ≠ .closeArray) (notCloseObject : call ≠ .closeObject) :
    event.beginsValue = true := by
  cases call with
  | real value =>
    by_cases finite : value.isFinite = true
    · simp only [event?, finite, dif_pos, Option.some.injEq] at adds
      exact adds ▸ rfl
    · simp [event?, finite] at adds
  | enumeration index names =>
    obtain ⟨name, _, rfl⟩ := Option.map_eq_some_iff.mp adds
    rfl
  | key name => exact absurd rfl (notKey name)
  | closeArray => exact absurd rfl notCloseArray
  | closeObject => exact absurd rfl notCloseObject
  | take => contradiction
  | _ => exact Option.some.inj adds ▸ rfl

theorem reports (representable : call.Representable)
    (failed : call.run.run draft.writer = .error error last) : Reports draft call error := by
  have effect := call.run_effect draft
  rw [failed] at effect
  cases effect with
  | refused blocked unfinished =>
    cases call with
    | key name => exact reports_key (blocked _ rfl) failed
    | closeArray => exact reports_closeArray (blocked _ rfl) failed
    | closeObject => exact reports_closeObject (blocked _ rfl) failed
    | take => exact reports_take (unfinished rfl) failed
    | _ =>
      obtain ⟨event, adds⟩ := representable.resolve_left nofun
      have begins := beginsValue_of_event? adds nofun nofun nofun
      exact reports_value adds begins (blocked event adds) failed

end Call

namespace Session

variable {session : Session} {draft : Draft} {call : Call} {event : Event}

/-- What the accepted calls have added to the next document. -/
def events (session : Session) : List Event := session.accepted.filterMap Call.event?

theorem Matches.events (same : Matches session draft) : session.events = draft.events := by
  have mapped := congrArg (List.filterMap id) same.2
  simpa [List.filterMap_map, Session.events] using mapped

/-- A call succeeds exactly if its event can be added, or the document is finished and taken. -/
theorem run_iff (same : Matches session draft) :
    (∃ result writer, call.run.run session.writer = .ok result writer) ↔
      (∃ event next, call.event? = some event ∧ draft.step event = some next) ∨
        call = .take ∧ ∃ tree, draft = .finished tree := by
  have effect := call.run_effect draft
  rw [← same.1] at effect
  generalize call.run.run session.writer = result at effect
  cases effect with
  | accepted adds steps => exact ⟨fun _ => .inl ⟨_, _, adds, steps⟩, fun _ => ⟨_, _, rfl⟩⟩
  | taken isTake finished => exact ⟨fun _ => .inr ⟨isTake, _, finished⟩, fun _ => ⟨_, _, rfl⟩⟩
  | refused blocked unfinished =>
    constructor
    · rintro ⟨result, writer, run⟩
      contradiction
    · rintro (⟨event, next, adds, steps⟩ | ⟨isTake, tree, finished⟩)
      · rw [blocked event adds] at steps
        contradiction
      · exact absurd finished (unfinished isTake tree)

/-- Whatever calls were made, an event is accepted exactly if some document goes on with it after
the events accepted since a document was last taken, and a document is taken exactly if those are
the events of one. A refused call reports the one misuse that it is after those events. -/
theorem accepts_iff_document (calls : List Call) :
    (run calls).accepted.map Call.event? = (run calls).events.map some ∧
    (∀ (call : Call) (event : Event), call.event? = some event →
      ((∃ result writer, call.run.run (run calls).writer = .ok result writer) ↔
        ∃ (tree : Tree) (rest : List Event), tree.events = (run calls).events ++ event :: rest)) ∧
    ((∃ document writer, take.run (run calls).writer = .ok document writer) ↔
      ∃ tree : Tree, tree.events = (run calls).events) ∧
    ∀ (call : Call) (error : Error) (writer : Writer), call.Representable →
      call.run.run (run calls).writer = .error error writer →
        ∃ misuse : Misuse, error.cause = misuse ∧
          ∀ other, call.Misplaced (run calls).events other ↔ other = misuse := by
  obtain ⟨draft, same⟩ := run_matches calls
  rw [same.events]
  refine ⟨same.2, ?_, ?_, ?_⟩
  · intro call event adds
    rw [run_iff same, ← Draft.step_iff]
    constructor
    · rintro (⟨other, next, also, steps⟩ | ⟨rfl, _⟩)
      · rw [adds] at also
        exact ⟨next, Option.some.inj also ▸ steps⟩
      · contradiction
    · rintro ⟨next, steps⟩
      exact .inl ⟨event, next, adds, steps⟩
  · simp only [Draft.document_iff, same.1]
    obtain ⟨tree, rfl, taken⟩ | ⟨unfinished, error, failed⟩ := take_run draft
    · exact ⟨fun _ => ⟨tree, rfl⟩, fun _ => ⟨_, _, taken⟩⟩
    · constructor
      · rintro ⟨document, writer, taken⟩
        rw [failed] at taken
        contradiction
      · rintro ⟨tree, finished⟩
        exact absurd finished (unfinished tree)
  · intro call error writer representable failed
    rw [same.1] at failed
    exact Call.reports representable failed

/-- Once a document was taken and a close refused, an object is open and its key has no value: a
value can follow, but another key cannot, and the object is no document yet. -/
theorem accepts_iff_document_pending :
    (∃ (tree : Tree) (rest : List Event),
      tree.events = [.openObject, .key "a"] ++ .leaf (.boolean true) :: rest) ∧
    (¬∃ tree : Tree, tree.events = [.openObject, .key "a"]) ∧
    ∀ other, (Call.key "b").Misplaced [.openObject, .key "a"] other ↔ other = .keyWithoutValue := by
  obtain ⟨_, accepts, takes, reports⟩ :=
    accepts_iff_document [.boolean false, .take, .openObject, .closeArray, .key "a"]
  refine ⟨(accepts (.boolean true) _ rfl).mp ⟨_, _, rfl⟩, ?_, ?_⟩
  · intro finished
    obtain ⟨document, writer, taken⟩ := takes.mpr finished
    contradiction
  · obtain ⟨misuse, reported, only⟩ := reports (.key "b") _ _ (.inr ⟨_, rfl⟩) rfl
    cases reported
    exact only

end Session

end Writer

end TypedJson
