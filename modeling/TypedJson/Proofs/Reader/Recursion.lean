import TypedJson.Proofs.Reader.Boundary

/-! Skipping told by its recursion alone. The levels and turns that bound it are never what ends it:
a value is skipped by skipping the values inside it, however many levels are left, and a search goes
on after each member it passes, however many turns are left. Both are because whatever is skipped
has a byte at least. -/
namespace TypedJson.Reader
open Grammar

variable {α β : Type} {before middle after : Reader} {item item' : Read α}

theorem run_bind_congr {k k' : α → Read β} (first : item.run before = item'.run before)
    (following : ∀ value middle, item.run before = .ok value middle →
      (k value).run middle = (k' value).run middle) :
    (item >>= k).run before = (item' >>= k').run before := by
  rw [EStateM.run_bind, EStateM.run_bind, ← first]
  cases run : item.run before with
  | error => rfl
  | ok value middle => exact following value middle run

/-- `after` is past `before` by a byte at least, and the same containers are open. -/
def Advances (before after : Reader) : Prop := ∃ text, text ≠ [] ∧ Passes before text after

theorem Advances.depth (advances : Advances before after) : after.depth = before.depth := by
  obtain ⟨_, _, passes⟩ := advances
  exact passes.depth

theorem Advances.shorter (advances : Advances before after) :
    after.unread.length < before.unread.length := by
  obtain ⟨text, nonempty, passes⟩ := advances
  have := List.length_pos_iff.mpr nonempty
  rw [passes.unread, List.length_append]
  omega

theorem Passes.advances {text : List UInt8} (passes : Passes before text middle)
    (advances : Advances middle after) : Advances before after := by
  obtain ⟨more, nonempty, morePasses⟩ := advances
  exact ⟨text ++ more, List.append_ne_nil_of_right_ne_nil _ nonempty, passes.trans morePasses⟩

theorem Passes.length_le {text : List UInt8} (passes : Passes before text after) :
    after.unread.length ≤ before.unread.length := by
  rw [passes.unread, List.length_append]
  omega

/-- A step that cannot succeed without reading a byte. -/
def Progresses (item : Read α) : Prop :=
  ∀ ⦃before value after⦄, item.run before = .ok value after → Advances before after

theorem advances_of_head? {text : List UInt8} {byte : UInt8} (passes : Passes before text after)
    (head : text.head? = some byte) : Advances before after := by
  refine ⟨text, ?_, passes⟩
  rintro rfl
  contradiction

theorem skip_progresses (limit : Nat) : Progresses (skip limit) := by
  intro before value after read
  obtain ⟨space, text, _, value, passes, _⟩ := skip_sound rfl read
  obtain ⟨middle, spacePasses, valuePasses⟩ := passes.split
  obtain ⟨byte, head, _⟩ := value.starts
  exact spacePasses.advances (advances_of_head? valuePasses head)

variable {limit depth budget budget' count : Nat} {inner inner' : Read Unit} {names : List String}

/-! Levels -/

/-- Two steps that are the same at a depth. -/
def SameAt (depth : Nat) (item item' : Read α) : Prop :=
  ∀ ⦃before⦄, before.depth = depth → item.run before = item'.run before

theorem elementsFrom_congr (same : SameAt depth item item') (progresses : Progresses item) :
    SameAt depth (elementsFrom item budget count) (elementsFrom item' budget count) := by
  induction budget generalizing count with
  | zero => exact fun _ _ => rfl
  | succ budget ih =>
    intro before level
    refine run_bind_congr rfl fun ended middle ends => ?_
    obtain ⟨_, passes, _⟩ := arrayEnds_sound ends
    cases ended with
    | true => rfl
    | false =>
      refine run_bind_congr (same (passes.depth.trans level)) fun value next read => ?_
      have inside := (progresses read).depth.trans (passes.depth.trans level)
      exact run_bind_congr (ih inside) fun _ _ _ => rfl

theorem keyWith_congr (same : SameAt depth inner inner') (progresses : Progresses inner) :
    SameAt depth (keyWith inner names budget count) (keyWith inner' names budget count) := by
  induction budget generalizing count with
  | zero => exact fun _ _ => rfl
  | succ budget ih =>
    intro before level
    refine run_bind_congr rfl fun found middle header => ?_
    obtain ⟨_, passes, _⟩ := memberName_sound header
    cases found with
    | none => rfl
    | some name =>
      dsimp only
      cases names.idxOf? name with
      | some index => rfl
      | none =>
        refine run_bind_congr (same (passes.depth.trans level)) fun _ next read => ?_
        exact ih ((progresses read).depth.trans (passes.depth.trans level))

/-- Values inside are skipped at one depth only, and only if a container may be open there. -/
theorem skipUsing_congr (same : depth + 1 < limit → SameAt (depth + 1) inner inner')
    (progresses : Progresses inner) :
    SameAt depth (skipUsing limit inner) (skipUsing limit inner') := by
  intro before level
  refine run_bind_congr rfl fun head start peek => ?_
  obtain ⟨space, _, passes, head⟩ := peekToken_sound peek
  have inside {opened : Reader} {byte : UInt8} (head : start.unread.head? = some byte)
      (enters : (enter limit).run start = .ok () opened) :
      opened.depth = depth + 1 ∧ SameAt (depth + 1) inner inner' := by
    obtain ⟨shallow, within, bracketPasses, rfl⟩ := (enter_iff head).mp enters
    have level : start.depth = depth := passes.depth.trans level
    exact ⟨by rw [Reader.within, bracketPasses.depth, level], same (by rwa [← level])⟩
  split
  case h_1 => rfl
  case h_2 byte =>
    split
    case isTrue =>
      refine run_bind_congr rfl fun _ opened enters => ?_
      obtain ⟨level, same⟩ := inside head enters
      exact run_bind_congr (elementsFrom_congr same progresses level) fun _ _ _ => rfl
    case isFalse =>
      split
      case isTrue =>
        refine run_bind_congr rfl fun _ opened enters => ?_
        obtain ⟨level, same⟩ := inside head enters
        exact run_bind_congr rfl fun reader last got => by
          obtain ⟨rfl, rfl⟩ := EStateM.Result.ok.inj got
          exact run_bind_congr (keyWith_congr same progresses level) fun _ _ _ => rfl
      case isFalse => rfl

/-- A value is skipped by skipping the values inside it. -/
theorem skip_eq (limit : Nat) (before : Reader) :
    (skip limit).run before = (skipUsing limit (skip limit)).run before := by
  have levels (reader : Reader) :
      (skip limit).run reader = (skipWithin limit (limit - reader.depth)).run reader := rfl
  rw [levels]
  cases left : limit - before.depth with
  | zero =>
    exact (skipUsing_congr (fun shallow => by omega) (skip_progresses limit) rfl).symm
  | succ more =>
    refine (skipUsing_congr (fun _ inside level => ?_) (skip_progresses limit) rfl).symm
    have left : limit - inside.depth = more := by omega
    rw [levels, left]

/-! Turns -/

/-- Turns beyond the unread bytes make no difference to an array. -/
theorem elementsFrom_enough (progresses : Progresses item) (enough : before.unread.length < budget)
    (enough' : before.unread.length < budget') :
    (elementsFrom item budget count).run before = (elementsFrom item budget' count).run before := by
  induction budget generalizing before budget' count with
  | zero => contradiction
  | succ budget ih =>
    obtain ⟨budget', rfl⟩ : ∃ more, budget' = more + 1 := ⟨budget' - 1, by omega⟩
    refine run_bind_congr rfl fun ended middle ends => ?_
    obtain ⟨separator, passes, _⟩ := arrayEnds_sound ends
    cases ended with
    | true => rfl
    | false =>
      refine run_bind_congr rfl fun value next read => ?_
      have whole := passes.length_le
      have shorter := (progresses read).shorter
      exact run_bind_congr (ih (by omega) (by omega)) fun _ _ _ => rfl

/-- The elements after the first `count`, in as many turns as it takes. -/
def elementsAfter (item : Read α) (count : Nat) : Read (List α) := do
  elementsFrom item ((← get).unread.length + 1) count

theorem elementsAfter_eq (progresses : Progresses item) (count : Nat) (before : Reader) :
    (elementsAfter item count).run before = (do
      if ← arrayEnds count then return []
      else
        let element ← item
        let following ← elementsAfter item (count + 1)
        return element :: following).run before := by
  rw [elementsAfter, run_bind_of_ok run_get, elementsFrom]
  refine run_bind_congr rfl fun ended middle ends => ?_
  obtain ⟨separator, passes, _⟩ := arrayEnds_sound ends
  cases ended with
  | true => rfl
  | false =>
    refine run_bind_congr rfl fun value next read => ?_
    have whole := passes.length_le
    have shorter := (progresses read).shorter
    exact run_bind_congr (elementsFrom_enough progresses (by omega) (Nat.lt_succ_self _))
      fun _ _ _ => rfl

/-- A search goes on after each member that it passes. -/
theorem key_eq (limit : Nat) (names : List String) (count : Nat) (before : Reader) :
    (key limit names count).run before = (do
      match ← memberName count with
      | none => return none
      | some name =>
        match names.idxOf? name with
        | some index => return some index
        | none => do
          skip limit
          key limit names (count + 1)).run before := by
  have passed (before after : Reader) (skipped : (skip limit).run before = .ok () after) :
      ∃ text, Passes before text after := by
    obtain ⟨text, _, passes⟩ := skip_progresses limit skipped
    exact ⟨text, passes⟩
  rw [key, run_bind_of_ok run_get, keyWith_turn (Nat.le_refl _)]
  refine run_bind_congr rfl fun found middle header => ?_
  obtain ⟨heading, passes, _⟩ := memberName_sound header
  cases found with
  | none => rfl
  | some name =>
    dsimp only
    cases names.idxOf? name with
    | some index => rfl
    | none =>
      refine run_bind_congr rfl fun _ next skipped => ?_
      have whole := passes.length_le
      have shorter := (skip_progresses limit skipped).shorter
      exact keyWith_enough passed (by omega) (Nat.le_refl _)

/-- A search that goes on after a member has read a byte at least. -/
theorem key_progresses {name : String}
    (header : (memberName count).run before = .ok (some name) middle)
    (skipped : (skip limit).run middle = .ok () after) : Advances before after := by
  obtain ⟨heading, passes, _⟩ := memberName_sound header
  exact passes.advances (skip_progresses limit skipped)

end TypedJson.Reader
