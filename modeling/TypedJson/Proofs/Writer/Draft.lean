import TypedJson.Proofs.Reader.Step
import TypedJson.Proofs.Writer.Tree

/-! A document that is being written: the containers that are open, each with the values finished in
it, or the finished value. A writer holds the text of a draft and the counts of its containers, so
a call succeeds exactly if its event can be added to the draft. -/
namespace TypedJson

/-- A container in which a value may come next. -/
inductive Frame where
  | array (elements : List Tree)
  | member (members : List (String × Tree)) (name : String)

inductive Draft where
  /-- A value may come next: outside of all containers, in an array or after a key. -/
  | awaiting (frames : List Frame)
  /-- The innermost container is an object, and a key may come next. -/
  | between (members : List (String × Tree)) (frames : List Frame)
  | finished (tree : Tree)

namespace Draft

/-- A finished value in its place. -/
def put (tree : Tree) : List Frame → Draft
  | [] => .finished tree
  | .array elements :: outer => .awaiting (.array (elements ++ [tree]) :: outer)
  | .member members name :: outer => .between (members ++ [(name, tree)]) outer

/-- The draft with one more event, if the event can come next. -/
def step : Draft → Event → Option Draft
  | .awaiting frames, .leaf value => some (put (.leaf value) frames)
  | .awaiting frames, .openArray => some (.awaiting (.array [] :: frames))
  | .awaiting (.array elements :: outer), .closeArray => some (put (.array elements) outer)
  | .awaiting frames, .openObject => some (.between [] frames)
  | .between members outer, .closeObject => some (put (.object members) outer)
  | .between members outer, .key name => some (.awaiting (.member members name :: outer))
  | _, _ => none

/-! The events of a draft -/

def frameEvents : Frame → List Event
  | .array elements => .openArray :: Tree.eventsAll elements
  | .member members name => .openObject :: Tree.eventsMembers members ++ [.key name]

def framesEvents : List Frame → List Event
  | [] => []
  | frame :: outer => framesEvents outer ++ frameEvents frame

def events : Draft → List Event
  | .awaiting frames => framesEvents frames
  | .between members outer => framesEvents outer ++ .openObject :: Tree.eventsMembers members
  | .finished tree => tree.events

theorem eventsAll_append (first second : List Tree) :
    Tree.eventsAll (first ++ second) = Tree.eventsAll first ++ Tree.eventsAll second := by
  induction first with
  | nil => rfl
  | cons tree first ih =>
    rw [List.cons_append, Tree.eventsAll, Tree.eventsAll, ih, List.append_assoc]

theorem eventsMembers_append (first second : List (String × Tree)) :
    Tree.eventsMembers (first ++ second) =
      Tree.eventsMembers first ++ Tree.eventsMembers second := by
  induction first with
  | nil => rfl
  | cons member first ih =>
    rw [List.cons_append, Tree.eventsMembers, Tree.eventsMembers, ih, List.append_assoc]

theorem put_events (tree : Tree) (frames : List Frame) :
    (put tree frames).events = framesEvents frames ++ tree.events := by
  cases frames with
  | nil => rfl
  | cons frame outer =>
    cases frame with
    | array elements =>
      simp [put, events, framesEvents, frameEvents, eventsAll_append, Tree.eventsAll]
    | member members name =>
      simp [put, events, framesEvents, frameEvents, eventsMembers_append, Tree.eventsMembers]

theorem step_events {draft next : Draft} {event : Event} (steps : draft.step event = some next) :
    next.events = draft.events ++ [event] := by
  unfold step at steps
  split at steps <;> cases steps
  case h_1 frames value => rw [put_events]; rfl
  case h_2 frames => rfl
  case h_3 elements outer =>
    rw [put_events]
    simp [events, framesEvents, frameEvents, Tree.events]
  case h_4 frames => rfl
  case h_5 members outer =>
    rw [put_events]
    simp [events, Tree.events]
  case h_6 members outer name => simp [events, framesEvents, frameEvents]

/-- The draft after some events, if they can all come next. -/
def steps (draft : Draft) : List Event → Option Draft
  | [] => some draft
  | event :: rest => (draft.step event).bind (steps · rest)

theorem steps_append (draft : Draft) (first second : List Event) :
    draft.steps (first ++ second) = (draft.steps first).bind (·.steps second) := by
  induction first generalizing draft with
  | nil => rfl
  | cons event first ih =>
    rw [List.cons_append, steps, steps]
    cases draft.step event with
    | none => rfl
    | some next => exact ih next

mutual
/-- The events of a value put it in its place. -/
theorem steps_tree (frames : List Frame) : (tree : Tree) →
    (Draft.awaiting frames).steps tree.events = some (put tree frames)
  | .leaf _ => rfl
  | .array elements => by
    rw [Tree.events, List.cons_append, steps, step, Option.bind_some, steps_append,
      steps_all frames [] elements]
    rfl
  | .object members => by
    rw [Tree.events, List.cons_append, steps, step, Option.bind_some, steps_append,
      steps_members frames [] members]
    rfl

theorem steps_all (frames : List Frame) (before : List Tree) : (elements : List Tree) →
    (Draft.awaiting (.array before :: frames)).steps (Tree.eventsAll elements) =
      some (.awaiting (.array (before ++ elements) :: frames))
  | [] => by rw [List.append_nil]; rfl
  | tree :: rest => by
    rw [Tree.eventsAll, steps_append, steps_tree _ tree, Option.bind_some, put,
      steps_all frames (before ++ [tree]) rest, List.append_assoc, List.singleton_append]

theorem steps_members (frames : List Frame) (before : List (String × Tree)) :
    (members : List (String × Tree)) →
      (Draft.between before frames).steps (Tree.eventsMembers members) =
        some (.between (before ++ members) frames)
  | [] => by rw [List.append_nil]; rfl
  | (name, tree) :: rest => by
    rw [Tree.eventsMembers, List.cons_append, steps, step, Option.bind_some, steps_append,
      steps_tree _ tree, Option.bind_some, put,
      steps_members frames (before ++ [(name, tree)]) rest, List.append_assoc,
      List.singleton_append]
end

/-- A value is told by its events. -/
theorem events_injective {tree other : Tree} (same : tree.events = other.events) :
    tree = other := by
  have first := steps_tree [] tree
  rw [same, steps_tree [] other] at first
  exact (Draft.finished.inj (Option.some.inj first)).symm

end Draft

end TypedJson
