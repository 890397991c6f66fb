import Mathlib.Logic.Function.Iterate
import TypedJson.Proofs.Reader.Activation

/-! Skipping ends, and how deep it goes. Every step of the calls under way reads a byte or leaves
less to go on with, so the steps are bounded by the bytes alone, whatever the limit. Each call that
waits for a value holds a container open, and only the last one opened may be one too many. -/
namespace TypedJson.Reader

variable {limit : Nat} {start before : Reader} {waiting calls : List Activation} {top : Activation}
  {found : Option Nat} {config : Config}

/-! Steps left -/

/-- The steps that a call can take before a byte is read. -/
def Activation.weight : Activation → Nat
  | .elements 0 => 3
  | _ => 1

/-- A bound on the steps that are left. -/
def stepsLeft : Config → Nat
  | .ok (_, calls) reader => 3 * reader.unread.length + (calls.map Activation.weight).sum
  | .error _ _ => 0

/-- No call is under way. -/
def HasEnded : Config → Prop
  | .ok (_, calls) _ => calls = []
  | .error _ _ => True

@[simp] theorem weight_value : Activation.value.weight = 1 := rfl

@[simp] theorem weight_members : Activation.members.weight = 1 := rfl

@[simp] theorem weight_search (names : List String) (count : Nat) :
    (Activation.search names count).weight = 1 := rfl

@[simp] theorem weight_first : (Activation.elements 0).weight = 3 := rfl

@[simp] theorem weight_following (count : Nat) : (Activation.elements (count + 1)).weight = 1 := rfl

theorem weight_pos (top : Activation) : 0 < top.weight := by
  cases top with
  | value | members | search => exact Nat.one_pos
  | elements count => cases count <;> exact Nat.succ_pos _

/-- A step that reads nothing leaves less to go on with, and a byte makes up for any call. -/
theorem Activation.Effect.stepsLeft_lt (effect : top.Effect limit waiting before config)
    (found : Option Nat) : stepsLeft config < stepsLeft (.ok (found, top :: waiting) before) := by
  have heavy := weight_pos top
  cases effect with
  | token advances | closed advances | returned advances =>
    have := advances.shorter
    simp only [stepsLeft, List.map_cons, List.sum_cons]
    omega
  | array advances | object advances | element advances | member advances =>
    have := advances.shorter
    simp only [stepsLeft, within, List.map_cons, List.sum_cons, weight_value, weight_members,
      weight_search, weight_first, weight_following]
    omega
  | first passes =>
    have := passes.length_le
    simp only [stepsLeft, List.map_cons, List.sum_cons, weight_value, weight_first,
      weight_following 0]
    omega
  | left => simp [stepsLeft]
  | refused | failed =>
    simp only [stepsLeft, List.map_cons, List.sum_cons]
    omega

theorem stepsLeft_next (limit : Nat) (config : Config) :
    HasEnded config ∨ stepsLeft (next limit config) < stepsLeft config := by
  match config with
  | .error _ _ => exact .inl trivial
  | .ok (_, []) _ => exact .inl rfl
  | .ok (found, top :: waiting) before =>
    exact .inr ((top.effect limit waiting before).stepsLeft_lt found)

theorem exists_ended (limit : Nat) (config : Config) :
    ∃ steps ≤ stepsLeft config, HasEnded ((next limit)^[steps] config) := by
  induction size : stepsLeft config using Nat.strong_induction_on generalizing config with
  | h size ih =>
    rcases stepsLeft_next limit config with ended | less
    · exact ⟨0, Nat.zero_le _, ended⟩
    · obtain ⟨steps, bound, ended⟩ := ih _ (size ▸ less) (next limit config) rfl
      exact ⟨steps + 1, by omega, ended⟩

/-! What a run comes to -/

/-- What the calls under way come to from a point on. -/
def outcome (limit : Nat) : Config → EStateM.Result Error Reader (Option Nat)
  | .ok (found, calls) reader => (performAll limit calls found).run reader
  | .error error reader => .error error reader

/-- The point at which a run has ended. -/
def endPoint : EStateM.Result Error Reader (Option Nat) → Config
  | .ok found reader => .ok (found, []) reader
  | .error error reader => .error error reader

theorem outcome_next (limit : Nat) (config : Config) :
    outcome limit (next limit config) = outcome limit config := by
  match config with
  | .error _ _ => rfl
  | .ok (_, []) _ => rfl
  | .ok (found, top :: waiting) before =>
    have stepped := perform_step limit waiting top before
    rw [outcome, performAll, stepped, EStateM.run_bind, next]
    cases (top.step limit waiting).run before with
    | ok => rfl
    | error => rfl

theorem HasEnded.eq_endPoint (isEnded : HasEnded config) :
    config = endPoint (outcome limit config) := by
  match config with
  | .error _ _ => rfl
  | .ok (_, []) _ => rfl

/-- What a step keeps holds at every point of a run. -/
theorem holds_throughout {holds : Config → Prop}
    (kept : ∀ config, holds config → holds (next limit config)) (first : holds config)
    (steps : Nat) : holds ((next limit)^[steps] config) := by
  induction steps generalizing config with
  | zero => exact first
  | succ steps ih => exact ih (kept config first)

/-- A run ends with what its calls come to in full. -/
theorem run_ends (limit : Nat) (config : Config) :
    ∃ steps ≤ stepsLeft config, (next limit)^[steps] config = endPoint (outcome limit config) := by
  obtain ⟨steps, bound, isEnded⟩ := exists_ended limit config
  have same : outcome limit ((next limit)^[steps] config) = outcome limit config :=
    @holds_throughout limit config (fun later => outcome limit later = outcome limit config)
      (fun later kept => (outcome_next limit later).trans kept) rfl steps
  exact ⟨steps, bound, by rw [isEnded.eq_endPoint, same]⟩

/-! Containers and calls -/

/-- Whether a call skips a value. -/
def Activation.skips : Activation → Bool
  | .search _ _ => false
  | _ => true

@[simp] theorem skips_value : Activation.value.skips = true := rfl

@[simp] theorem skips_elements (count : Nat) : (Activation.elements count).skips = true := rfl

@[simp] theorem skips_members : Activation.members.skips = true := rfl

@[simp] theorem skips_search (names : List String) (count : Nat) :
    (Activation.search names count).skips = false := rfl

/-- Whether a call has opened the container that it skips. -/
def Activation.opens : Activation → Bool
  | .elements _ | .members => true
  | _ => false

/-- The containers that calls hold open. -/
def heldOpen (calls : List Activation) : Nat := calls.countP Activation.opens

@[simp] theorem heldOpen_nil : heldOpen [] = 0 := rfl

@[simp] theorem heldOpen_value (calls : List Activation) :
    heldOpen (.value :: calls) = heldOpen calls := rfl

@[simp] theorem heldOpen_search (names : List String) (count : Nat) (calls : List Activation) :
    heldOpen (.search names count :: calls) = heldOpen calls := rfl

@[simp] theorem heldOpen_elements (count : Nat) (calls : List Activation) :
    heldOpen (.elements count :: calls) = heldOpen calls + 1 :=
  List.countP_cons_of_pos rfl

@[simp] theorem heldOpen_members (calls : List Activation) :
    heldOpen (.members :: calls) = heldOpen calls + 1 :=
  List.countP_cons_of_pos rfl

/-- Calls of which each waits for a value: loops over the elements of an array, and searches of
objects that are skipped, down to the search that the run may have begun with. -/
inductive Waiting : List Activation → Prop where
  | none : Waiting []
  | search {names : List String} {count : Nat} : Waiting [.search names count]
  | elements {count : Nat} {stack : List Activation} : Waiting stack →
      Waiting (.elements count :: stack)
  | members {count : Nat} {stack : List Activation} : Waiting stack →
      Waiting (.search [] count :: .members :: stack)

/-- The calls that may be under way at once. -/
inductive Stacked : List Activation → Prop where
  | waiting {stack : List Activation} : Waiting stack → Stacked stack
  | value {stack : List Activation} : Waiting stack → Stacked (.value :: stack)
  | members {stack : List Activation} : Waiting stack → Stacked (.members :: stack)

/-- Each container is held open by one call that skips a value and searched by one call at most, and
a search that the run began with is one more. -/
theorem Waiting.counts (isWaiting : Waiting calls) :
    calls.countP Activation.skips = heldOpen calls ∧
      calls.countP (!·.skips) ≤ heldOpen calls + 1 := by
  induction isWaiting with
  | none | search => simp
  | elements _ ih | members _ ih =>
    simp only [List.countP_cons, skips_elements, skips_search, skips_members, heldOpen_elements,
      heldOpen_search, heldOpen_members, Bool.not_true, Bool.not_false, Bool.false_eq_true,
      reduceIte]
    omega

theorem Stacked.counts (stacked : Stacked calls) :
    calls.countP Activation.skips ≤ heldOpen calls + 1 ∧
      calls.countP (!·.skips) ≤ heldOpen calls + 1 := by
  cases stacked with
  | waiting isWaiting => exact ⟨isWaiting.counts.1.trans_le (Nat.le_succ _), isWaiting.counts.2⟩
  | value isWaiting | members isWaiting =>
    have := isWaiting.counts
    simp only [List.countP_cons, skips_value, skips_members, heldOpen_value, heldOpen_members,
      Bool.not_true, Bool.false_eq_true, reduceIte]
    omega

theorem Stacked.of_value (stacked : Stacked (.value :: waiting)) : Waiting waiting := by
  cases stacked with
  | waiting isWaiting => cases isWaiting
  | value isWaiting => exact isWaiting

theorem Stacked.of_members (stacked : Stacked (.members :: waiting)) : Waiting waiting := by
  cases stacked with
  | waiting isWaiting => cases isWaiting
  | members isWaiting => exact isWaiting

theorem Stacked.of_elements {count : Nat} (stacked : Stacked (.elements count :: waiting)) :
    Waiting waiting := by
  cases stacked with
  | waiting isWaiting => cases isWaiting with | elements isWaiting => exact isWaiting

theorem Stacked.of_search {names : List String} {count : Nat} (more : Nat)
    (stacked : Stacked (.search names count :: waiting)) :
    Waiting (.search names more :: waiting) ∧ Stacked waiting := by
  cases stacked with
  | waiting isWaiting =>
    cases isWaiting with
    | search => exact ⟨.search, .waiting .none⟩
    | members isWaiting => exact ⟨.members isWaiting, .members isWaiting⟩

/-- A point of a run that began at `start`: the calls under way hold open what was opened since, and
the container opened last is one too many only if its call has failed. -/
inductive Sustained (limit : Nat) (start : Reader) : Config → Prop where
  | running {found : Option Nat} {stack : List Activation} {reader : Reader} : Stacked stack →
      reader.depth = start.depth + heldOpen stack → (heldOpen stack = 0 ∨ reader.depth < limit) →
        Sustained limit start (.ok (found, stack) reader)
  | failed {error : Error} {reader : Reader} : start.depth ≤ reader.depth →
      reader.depth - start.depth ≤ max 1 (limit - start.depth) →
        Sustained limit start (.error error reader)

theorem Activation.Effect.sustained (effect : top.Effect limit waiting before config)
    (sustained : Sustained limit start (.ok (found, top :: waiting) before)) :
    Sustained limit start config := by
  obtain ⟨stacked, level, shallow⟩ := sustained
  cases effect with
  | token advances =>
    rw [heldOpen_value, ← advances.depth] at level shallow
    exact .running (.waiting stacked.of_value) level shallow
  | array advances shallower =>
    rw [heldOpen_value, ← advances.depth] at level
    rw [← advances.depth] at shallower
    refine .running (.waiting (.elements stacked.of_value)) ?_ (.inr shallower)
    rw [heldOpen_elements, ← Nat.add_assoc, ← level, within]
  | object advances shallower =>
    rw [heldOpen_value, ← advances.depth] at level
    rw [← advances.depth] at shallower
    refine .running (.waiting (.members stacked.of_value)) ?_ (.inr shallower)
    rw [heldOpen_search, heldOpen_members, ← Nat.add_assoc, ← level, within]
  | refused _ deeper =>
    rw [heldOpen_value] at level shallow
    exact .failed (by omega) (by omega)
  | first passes =>
    rw [← passes.depth] at level shallow
    exact .running (.value (.elements stacked.of_elements)) level shallow
  | element advances =>
    rw [← advances.depth] at level shallow
    exact .running (.value (.elements stacked.of_elements)) level shallow
  | closed advances =>
    have same := advances.depth
    rw [heldOpen_elements] at level shallow
    exact .running (.waiting stacked.of_elements) (by simp only; omega) (by simp only; omega)
  | left =>
    rw [heldOpen_members] at level shallow
    exact .running (.waiting stacked.of_members) (by simp only; omega) (by simp only; omega)
  | member advances =>
    rw [heldOpen_search, ← advances.depth] at level shallow
    exact .running (.value (stacked.of_search _).1) level shallow
  | returned advances =>
    rw [heldOpen_search, ← advances.depth] at level shallow
    exact .running (stacked.of_search 0).2 level shallow
  | failed same => exact .failed (by omega) (by omega)

theorem Sustained.next (sustained : Sustained limit start config) :
    Sustained limit start (next limit config) := by
  match config with
  | .error _ _ => exact sustained
  | .ok (_, []) _ => exact sustained
  | .ok (_, top :: waiting) before => exact (top.effect limit waiting before).sustained sustained

/-- The point of a run after a number of steps. -/
def pointAfter (limit : Nat) (first : Activation) (start : Reader) (steps : Nat) : Config :=
  (next limit)^[steps] (.ok (none, [first]) start)

/-- Where the reader stands at a point of a run. -/
def standing : Config → Reader
  | .ok _ reader | .error _ reader => reader

/-- The calls under way at a point of a run. -/
def underWay : Config → List Activation
  | .ok (_, calls) _ => calls
  | .error _ _ => []

/-- The containers that were opened since a run began and are still open, the refused one too. -/
def openedSince (start : Reader) (point : Config) : Nat := (standing point).depth - start.depth

/-- The run of a call from `start` ends with `result`, after a number of steps that the limit has no
part in. At every point no more containers have been opened than the limit leaves room for, with the
one that it refuses. Each of them is held open by one call, so the calls that skip a value are one
more at most, and so are those that search. -/
structure Bounded (limit : Nat) (first : Activation) (start : Reader)
    (result : EStateM.Result Error Reader (Option Nat)) : Prop where
  ends : ∃ steps ≤ 3 * start.unread.length + first.weight,
    pointAfter limit first start steps = endPoint result
  deeper (steps : Nat) : start.depth ≤ (standing (pointAfter limit first start steps)).depth
  opened (steps : Nat) :
    openedSince start (pointAfter limit first start steps) ≤ max 1 (limit - start.depth)
  skipping (steps : Nat) : (underWay (pointAfter limit first start steps)).countP Activation.skips ≤
    openedSince start (pointAfter limit first start steps) + 1
  searching (steps : Nat) : (underWay (pointAfter limit first start steps)).countP (!·.skips) ≤
    openedSince start (pointAfter limit first start steps) + 1

theorem Sustained.bounds (sustained : Sustained limit start config) :
    start.depth ≤ (standing config).depth ∧
      openedSince start config ≤ max 1 (limit - start.depth) ∧
      (underWay config).countP Activation.skips ≤ openedSince start config + 1 ∧
      (underWay config).countP (!·.skips) ≤ openedSince start config + 1 := by
  cases sustained with
  | failed deeper bound => exact ⟨deeper, bound, Nat.zero_le _, Nat.zero_le _⟩
  | @running found stack reader stacked level shallow =>
    have counts := stacked.counts
    have opened : openedSince start (.ok (found, stack) reader) = heldOpen stack := by
      rw [openedSince, standing, level, Nat.add_sub_cancel_left]
    rw [opened, standing]
    exact ⟨by omega, by omega, counts⟩

theorem bounded (limit : Nat) (start : Reader) (stacked : Stacked [top])
    (closed : heldOpen [top] = 0) : Bounded limit top start ((top.perform limit).run start) := by
  have first : Sustained limit start (.ok (none, [top]) start) :=
    .running stacked (by rw [closed, Nat.add_zero]) (.inl closed)
  have sustained (steps : Nat) : Sustained limit start (pointAfter limit top start steps) :=
    @holds_throughout limit _ (Sustained limit start) (fun _ => Sustained.next) first steps
  have same : outcome limit (.ok (none, [top]) start) = (top.perform limit).run start := by
    rw [outcome, performAll, EStateM.run_bind]
    cases (top.perform limit).run start <;> rfl
  obtain ⟨steps, bound, ends⟩ := run_ends limit (.ok (none, [top]) start)
  rw [same] at ends
  exact {
    ends := ⟨steps, by simpa [stepsLeft] using bound, ends⟩
    deeper := fun steps => (sustained steps).bounds.1
    opened := fun steps => (sustained steps).bounds.2.1
    skipping := fun steps => (sustained steps).bounds.2.2.1
    searching := fun steps => (sustained steps).bounds.2.2.2 }

/-- From any reader and with any limit, skipping a value ends and so does searching an object, with
the containers and the calls bounded as told. What is skipped has a byte at least, and so has each
member that a search goes on after. -/
theorem skipping_bounded (limit : Nat) (names : List String) (count : Nat) (before : Reader) :
    Bounded limit .value before ((skip limit >>= fun _ => pure none).run before) ∧
      Bounded limit (.search names count) before ((key limit names count).run before) ∧
      (∀ after, (skip limit).run before = .ok () after → Advances before after) ∧
      (∀ name middle after, (memberName count).run before = .ok (some name) middle →
        (skip limit).run middle = .ok () after → Advances before after) ∧
      (key limit names count).run before = (do
        match ← memberName count with
        | none => return none
        | some name =>
          match names.idxOf? name with
          | some index => return some index
          | none => do
            skip limit
            key limit names (count + 1)).run before :=
  ⟨bounded limit before (.value .none) rfl, bounded limit before (.waiting .search) rfl,
    fun _ read => skip_progresses limit read, fun _ _ _ => key_progresses,
    key_eq limit names count before⟩

end TypedJson.Reader
