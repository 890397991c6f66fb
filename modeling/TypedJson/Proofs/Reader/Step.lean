import TypedJson.Proofs.Grammar.Document
import TypedJson.Reader.Container

/-! What a step of a reader does, told by the text between the reader before and the reader after.
A step that reads a token first passes over whitespace, so its text is whitespace and the token. -/
namespace TypedJson.Reader
open Grammar

/-- `after` is `before` once `text` is read. -/
structure Passes (before : Reader) (text : List UInt8) (after : Reader) : Prop where
  unread : before.unread = text ++ after.unread
  offset : after.offset = before.offset + text.length
  depth : after.depth = before.depth

variable {α β : Type} {before middle after : Reader} {text more rest : List UInt8} {byte : UInt8}
  {expected : SchemaError} {accept : UInt8 → Bool}

theorem Passes.refl (reader : Reader) : Passes reader [] reader := ⟨rfl, rfl, rfl⟩

theorem Passes.trans (first : Passes before text middle) (second : Passes middle more after) :
    Passes before (text ++ more) after := by
  refine ⟨?_, ?_, second.depth.trans first.depth⟩
  · rw [first.unread, second.unread, List.append_assoc]
  · rw [second.offset, first.offset, List.length_append, Nat.add_assoc]

theorem Passes.advance (unread : before.unread = text ++ rest) :
    Passes before text (before.advance text.length) := by
  refine ⟨?_, rfl, rfl⟩
  rw [Reader.advance, unread, List.drop_left]

theorem Passes.eq_advance (passes : Passes before text after) :
    after = before.advance text.length := by
  obtain ⟨unread, offset, depth⟩ := passes
  cases after
  simp_all [Reader.advance]

/-- A text that is passed can be passed in parts. -/
theorem Passes.split (passes : Passes before (text ++ more) after) :
    ∃ middle, Passes before text middle ∧ Passes middle more after := by
  have first : Passes before text (before.advance text.length) :=
    Passes.advance (passes.unread.trans (List.append_assoc ..))
  refine ⟨_, first, ?_, ?_, ?_⟩
  · have := first.unread
    rw [passes.unread, List.append_assoc] at this
    exact (List.append_cancel_left this).symm
  · rw [passes.offset, first.offset, List.length_append, Nat.add_assoc]
  · rw [passes.depth, first.depth]

theorem run_bind_ok {m : Read α} {k : α → Read β} {value : β}
    (result : (m >>= k).run before = .ok value after) :
    ∃ x middle, m.run before = .ok x middle ∧ (k x).run middle = .ok value after := by
  rw [EStateM.run_bind] at result
  cases first : m.run before with
  | error error reader =>
    rw [first] at result
    contradiction
  | ok x middle =>
    rw [first] at result
    exact ⟨x, middle, rfl, result⟩

theorem run_bind_of_ok {m : Read α} {k : α → Read β} {x : α} (first : m.run before = .ok x middle) :
    (m >>= k).run before = (k x).run middle := by
  rw [EStateM.run_bind, first]

/-! Tokens -/

theorem skipWhitespace_passes (reader : Reader) : ∃ space, Space space ∧
    Passes reader space reader.skipWhitespace ∧
    ∀ byte, reader.skipWhitespace.unread.head? = some byte → Ascii.isWhitespace byte = false := by
  have whole := (List.takeWhile_append_dropWhile (p := Ascii.isWhitespace) (l := reader.unread)).symm
  have passes := Passes.advance whole
  refine ⟨_, List.all_eq_true.mp List.all_takeWhile, passes, fun byte head => ?_⟩
  have rest : reader.skipWhitespace.unread = reader.unread.dropWhile Ascii.isWhitespace :=
    List.append_cancel_left (passes.unread.symm.trans whole)
  have stops := List.head?_dropWhile_not Ascii.isWhitespace reader.unread
  rw [← rest, head] at stops
  exact stops

theorem skipWhitespace_eq (space : Space text) (passes : Passes before text after)
    (stops : ∀ byte, after.unread.head? = some byte → Ascii.isWhitespace byte = false) :
    before.skipWhitespace = after := by
  have taken : before.unread.takeWhile Ascii.isWhitespace = text := by
    rw [passes.unread, List.takeWhile_append_of_pos space]
    cases rest : after.unread with
    | nil => exact List.append_nil text
    | cons byte rest =>
      rw [List.takeWhile_cons_of_neg (by simp [stops byte (by rw [rest]; rfl)]), List.append_nil]
  rw [skipWhitespace, taken]
  exact passes.eq_advance.symm

theorem passes_head (head : before.unread.head? = some byte) :
    Passes before [byte] (before.advance 1) := by
  cases unread : before.unread with
  | nil => rw [unread] at head; contradiction
  | cons first rest =>
    rw [unread] at head
    cases head
    exact @Passes.advance _ [byte] _ unread

/-- One byte is read by passing over it. -/
theorem consume_iff (head : before.unread.head? = some byte) :
    (consume 1).run before = .ok () after ↔ Passes before [byte] after := by
  constructor
  · intro read
    obtain ⟨_, rfl⟩ := EStateM.Result.ok.inj read
    exact passes_head head
  · intro passes
    rw [passes.eq_advance]
    rfl

/-- The first byte of the next token, once the whitespace before it is passed. -/
theorem peekToken_sound {head : Option UInt8} (read : peekToken.run before = .ok head after) :
    ∃ space, Space space ∧ Passes before space after ∧ after.unread.head? = head := by
  obtain ⟨rfl, rfl⟩ := EStateM.Result.ok.inj read
  obtain ⟨space, isSpace, passes, _⟩ := skipWhitespace_passes before
  exact ⟨space, isSpace, passes, rfl⟩

theorem peekToken_complete (space : Space text) (passes : Passes before text after)
    (head : after.unread.head? = some byte) (token : Ascii.isWhitespace byte = false) :
    peekToken.run before = .ok (some byte) after := by
  have same : before.skipWhitespace = after := by
    apply skipWhitespace_eq space passes
    intro other h
    rw [head] at h
    cases h
    exact token
  rw [← head, ← same]
  rfl

theorem peekToken_end (space : Space text) (passes : Passes before text after)
    (ended : after.unread = []) : peekToken.run before = .ok none after := by
  have same : before.skipWhitespace = after :=
    skipWhitespace_eq space passes fun byte head => by rw [ended] at head; contradiction
  have head : after.unread.head? = none := by rw [ended]; rfl
  rw [← head, ← same]
  rfl

/-- From `before` to `after` stands a text of `language`, with whitespace in front of it, and what
follows could not be read as more of it. -/
def Crosses (language : List UInt8 → Prop) (before after : Reader) : Prop :=
  ∃ space text, Space space ∧ language text ∧ Passes before (space ++ text) after ∧
    Ends text after.unread

/-- Every value a step reads at a depth stands for a text of the value's language. -/
def Sound (item : Read α) (depth : Nat) (language : α → List UInt8 → Prop) : Prop :=
  ∀ ⦃before value after⦄, before.depth = depth → item.run before = .ok value after →
    Crosses (language value) before after

/-- A step reads every text of a value's language as that value. -/
def Complete (item : Read α) (depth : Nat) (language : α → List UInt8 → Prop) : Prop :=
  ∀ ⦃before value after⦄, before.depth = depth → Crosses (language value) before after →
    item.run before = .ok value after

theorem Crosses.imp {language wider : List UInt8 → Prop} (crosses : Crosses language before after)
    (weaker : ∀ text, language text → wider text) : Crosses wider before after := by
  obtain ⟨space, text, isSpace, valid, passes, ends⟩ := crosses
  exact ⟨space, text, isSpace, weaker text valid, passes, ends⟩

theorem Sound.imp {item : Read α} {depth : Nat} {language wider : α → List UInt8 → Prop}
    (sound : Sound item depth language)
    (weaker : ∀ value text, language value text → wider value text) : Sound item depth wider :=
  fun _ _ _ same read => (sound same read).imp (weaker _)

theorem Complete.imp {item : Read α} {depth : Nat} {language narrower : α → List UInt8 → Prop}
    (complete : Complete item depth language)
    (stronger : ∀ value text, narrower value text → language value text) :
    Complete item depth narrower :=
  fun _ _ _ same crosses => complete same (crosses.imp (stronger _))

theorem Crosses.depth {language : List UInt8 → Prop} (crosses : Crosses language before after) :
    after.depth = before.depth := by
  obtain ⟨_, _, _, _, passes, _⟩ := crosses
  exact passes.depth

theorem expect_sound (read : (expect accept expected).run before = .ok byte after) :
    ∃ space, Space space ∧ Passes before space after ∧ after.unread.head? = some byte ∧
      accept byte = true := by
  obtain ⟨head, middle, peek, read⟩ := run_bind_ok read
  obtain ⟨space, isSpace, passes, head⟩ := peekToken_sound peek
  split at read
  case h_1 => contradiction
  case h_2 =>
    split at read
    case isTrue accepted =>
      obtain ⟨rfl, rfl⟩ := EStateM.Result.ok.inj read
      exact ⟨space, isSpace, passes, head, accepted⟩
    case isFalse => split at read <;> contradiction

theorem expect_complete (space : Space text) (passes : Passes before text after)
    (head : after.unread.head? = some byte) (token : Ascii.isWhitespace byte = false)
    (accepted : accept byte = true) :
    (expect accept expected).run before = .ok byte after := by
  rw [expect, run_bind_of_ok (peekToken_complete space passes head token)]
  simp only [accepted, if_true]
  rfl

end TypedJson.Reader
