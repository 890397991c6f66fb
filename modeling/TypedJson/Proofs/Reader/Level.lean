import TypedJson.Reader.Container

/-! Steps that open and close no container, whether they succeed or fail. All that read a token are
such steps, and so is what is composed of them. -/
namespace TypedJson.Reader

variable {α β : Type} {item item' : Read α}

/-- A step after which as many containers are open as before, even if it fails. -/
def Level (item : Read α) : Prop := ∀ ⦃before⦄,
  (∀ value after, item.run before = .ok value after → after.depth = before.depth) ∧
    ∀ error after, item.run before = .error error after → after.depth = before.depth

theorem level_modifyGet {f : Reader → α × Reader}
    (same : ∀ before, (f before).2.depth = before.depth) : Level (modifyGet f) := by
  refine fun before => ⟨?_, nofun⟩
  rintro _ _ ⟨⟩
  exact same before

theorem level_throw (error : Error) : Level (throw error : Read α) := by
  refine fun before => ⟨nofun, ?_⟩
  rintro _ _ ⟨⟩
  rfl

theorem Level.bind {k : α → Read β} (first : Level item) (following : ∀ value, Level (k value)) :
    Level (item >>= k) := by
  intro before
  rw [EStateM.run_bind]
  cases run : item.run before with
  | error error middle =>
    refine ⟨nofun, ?_⟩
    rintro _ _ ⟨⟩
    exact first.2 _ _ run
  | ok value middle =>
    rw [← first.1 _ _ run]
    exact @following value middle

theorem Level.ite {holds : Prop} [Decidable holds] (yes : Level item) (no : Level item') :
    Level (if holds then item else item') := by
  split
  · exact yes
  · exact no

theorem level_pure (value : α) : Level (pure value) :=
  @level_modifyGet α (fun before => (value, before)) fun _ => rfl

theorem level_get : Level get :=
  @level_modifyGet Reader (fun before => (before, before)) fun _ => rfl

theorem level_consume (count : Nat) : Level (consume count) := level_modifyGet fun _ => rfl

theorem level_peekToken : Level peekToken := level_modifyGet fun _ => rfl

theorem level_fail (cause : Cause) : Level (fail cause : Read α) :=
  Level.bind level_get fun _ => level_throw _

/-- A step that consumes some bytes and returns. -/
theorem level_consumed (count : Nat) (value : α) : Level (consume count >>= fun _ => pure value) :=
  (level_consume count).bind fun _ => level_pure value

theorem level_literal (word : String) : Level (literal word) :=
  Level.bind level_get fun _ => (level_consume _).ite (level_fail _)

theorem level_numeral : Level numeral := by
  refine Level.bind level_get fun reader => ?_
  split
  · exact level_consumed _ _
  · exact level_throw _

theorem level_stringToken : Level stringToken := by
  refine Level.bind level_get fun reader => ?_
  split
  · exact level_consumed _ _
  · exact Level.ite ((level_consume _).bind fun _ => level_throw _) (level_throw _)

theorem level_arrayEnds (count : Nat) : Level (arrayEnds count) := by
  refine Level.bind level_peekToken fun head => ?_
  split
  · exact level_fail _
  · exact (level_consumed _ _).ite ((level_pure _).ite ((level_consumed _ _).ite (level_fail _)))

theorem level_nameAndColon : Level nameAndColon := by
  have colon (name : String) : Level (do
      if (← peekToken) ≠ some Ascii.colon then fail SyntaxError.missingColon
      consume 1
      return name) :=
    Level.bind level_peekToken fun _ =>
      ((level_fail _).bind fun _ => level_consumed 1 name).ite (level_consumed 1 name)
  have rest := Level.bind level_stringToken colon
  exact Level.bind level_peekToken fun _ => ((level_fail _).bind fun _ => rest).ite rest

theorem level_memberName (count : Nat) : Level (memberName count) := by
  have rest : Level (nameAndColon >>= fun name => pure (some name)) :=
    Level.bind level_nameAndColon fun _ => level_pure _
  have separated : Level (do
      consume 1
      let name ← nameAndColon
      return some name) := (level_consume 1).bind fun _ => rest
  refine Level.bind level_peekToken fun head => ?_
  split
  · exact level_fail _
  · exact (level_consumed _ _).ite
      ((separated.ite ((level_fail _).bind fun _ => rest)).ite rest)

end TypedJson.Reader
