import TypedJson.Proofs.Reader.Skip

/-! What stands at a reader stands there in one way only. Every part of a container is what some
step takes, and a step comes out one way, so two readings of the same bytes name the same members
with the same values. -/
namespace TypedJson.Reader
open Grammar

variable {α : Type} {before after after' : Reader} {space space' text text' body body' : List UInt8}
  {members members' : List (String × List UInt8)} {first : Bool} {item : Read α} {depth : Nat}
  {language : α → List UInt8 → Prop} {value : α}

/-- A value of the grammar, however deep. -/
def IsValue (text : List UInt8) : Prop := ∃ levels, ValueWithin levels text

theorem IsValue.starts (isValue : IsValue text) : Starts text := by
  obtain ⟨levels, valid⟩ := isValue
  exact valid.starts

theorem dropWhile_space (isSpace : Space space) (starts : Starts text) :
    (space ++ text).dropWhile Ascii.isWhitespace = text := by
  obtain ⟨byte, head, starts⟩ := starts
  rw [List.dropWhile_append_of_pos isSpace]
  cases text with
  | nil => contradiction
  | cons first rest =>
    cases head
    exact List.dropWhile_cons_of_neg (by simp [startsValue_token starts])

/-- Two texts that whitespace comes before are the same if the whole is. -/
theorem eq_of_space (isSpace : Space space) (starts : Starts text) (isSpace' : Space space')
    (starts' : Starts text') (same : space ++ text = space' ++ text') : text = text' := by
  have dropped := congrArg (List.dropWhile Ascii.isWhitespace) same
  rwa [dropWhile_space isSpace starts, dropWhile_space isSpace' starts'] at dropped

/-- Skipping with room for both of two values comes out at the end of either. -/
theorem value_unique (isSpace : Space space) (isValue : IsValue text)
    (passes : Passes before (space ++ text) after) (ends : Ends text after.unread)
    (isSpace' : Space space') (isValue' : IsValue text')
    (passes' : Passes before (space' ++ text') after') (ends' : Ends text' after'.unread) :
    text = text' ∧ after = after' := by
  obtain ⟨levels, valid⟩ := isValue
  obtain ⟨levels', valid'⟩ := isValue'
  generalize wide : before.depth + max levels levels' + 1 = limit
  have enough : room limit before.depth = max levels levels' := by
    rw [room]
    omega
  have skipped : (skip limit).run before = .ok () after := skip_complete rfl
    ⟨space, text, isSpace, enough.symm ▸ valid.mono (Nat.le_max_left ..), passes, ends⟩
  have skipped' : (skip limit).run before = .ok () after' := skip_complete rfl
    ⟨space', text', isSpace', enough.symm ▸ valid'.mono (Nat.le_max_right ..), passes', ends'⟩
  rw [skipped] at skipped'
  obtain rfl := (EStateM.Result.ok.inj skipped').2
  have whole := passes.unread.symm.trans passes'.unread
  exact ⟨eq_of_space isSpace valid.starts isSpace' valid'.starts (List.append_cancel_right whole),
    rfl⟩

/-- A value that the rest of an object follows ends where it ends. -/
theorem ends_of_members (following : Members false members body)
    (passes : Passes before body after) : Ends text before.unread := by
  rw [passes.unread]
  exact ends_of_closes following.closes

theorem members_unique (valids : Members first members body)
    (values : ∀ member ∈ members, IsValue member.2) (passes : Passes before body after)
    (valids' : Members first members' body') (values' : ∀ member ∈ members', IsValue member.2)
    (passes' : Passes before body' after') : members = members' ∧ after = after' := by
  obtain ⟨count, isFirst⟩ : ∃ count : Nat, (count == 0) = first := by
    cases first
    · exact ⟨1, rfl⟩
    · exact ⟨0, rfl⟩
  induction valids generalizing before members' body' count with
  | close isSpace =>
    have closes : (memberName count).run _ = _ := memberName_close isSpace passes
    cases valids' with
    | close isSpace' =>
      rw [memberName_close isSpace' passes'] at closes
      exact ⟨rfl, (EStateM.Result.ok.inj closes).2.symm⟩
    | cons heading' =>
      simp only [List.append_assoc] at passes'
      obtain ⟨middle, headingPasses, _⟩ := passes'.split
      rw [memberName_next (isFirst ▸ heading') headingPasses] at closes
      cases closes
  | cons heading isSpace following ih =>
    simp only [List.append_assoc] at passes
    obtain ⟨middle, headingPasses, passes⟩ := passes.split
    have next : (memberName count).run _ = _ := memberName_next (isFirst ▸ heading) headingPasses
    cases valids' with
    | close isSpace' =>
      rw [memberName_close isSpace' passes'] at next
      cases next
    | cons heading' isSpace' following' =>
      simp only [List.append_assoc] at passes'
      obtain ⟨middle', headingPasses', passes'⟩ := passes'.split
      rw [memberName_next (isFirst ▸ heading') headingPasses'] at next
      obtain ⟨named, rfl⟩ := EStateM.Result.ok.inj next
      obtain rfl := Option.some.inj named
      rw [← List.append_assoc] at passes passes'
      obtain ⟨between, valuePasses, passes⟩ := passes.split
      obtain ⟨between', valuePasses', passes'⟩ := passes'.split
      obtain ⟨isValue, others⟩ := List.forall_mem_cons.mp values
      obtain ⟨isValue', others'⟩ := List.forall_mem_cons.mp values'
      obtain ⟨rfl, rfl⟩ := value_unique isSpace isValue valuePasses
        (ends_of_members following passes) isSpace' isValue' valuePasses'
        (ends_of_members following' passes')
      obtain ⟨rfl, rfl⟩ := ih others passes following' others' passes' 1 rfl
      exact ⟨rfl, rfl⟩

/-- An object stands at a reader: whitespace, its members in braces, and whatever follows. -/
def ObjectAt (before : Reader) (members : List (String × List UInt8)) : Prop :=
  ∃ space body rest, Space space ∧ Members true members body ∧
    (∀ member ∈ members, IsValue member.2) ∧
    before.unread = space ++ Ascii.openBrace :: body ++ rest

theorem object_unique (stands : ObjectAt before members) (stands' : ObjectAt before members') :
    members = members' := by
  obtain ⟨space, body, rest, isSpace, valids, values, unread⟩ := stands
  obtain ⟨space', body', rest', isSpace', valids', values', unread'⟩ := stands'
  rw [unread, List.append_assoc, List.append_assoc] at unread'
  have same := eq_of_space isSpace ⟨_, rfl, rfl⟩ isSpace' ⟨_, rfl, rfl⟩ unread'
  have inside : body ++ rest = body' ++ rest' := (List.cons.inj same).2
  have passes : Passes ⟨body ++ rest, 0, 0⟩ body _ := .advance rfl
  have passes' : Passes ⟨body ++ rest, 0, 0⟩ body' _ := .advance inside
  exact (members_unique valids values passes valids' values' passes').1

/-! A value that stands alone -/

/-- A text that stands alone is read as a value at a depth. -/
def Accepts (item : Read α) (depth : Nat) (value : α) (text : List UInt8) : Prop :=
  ∃ after, item.run ⟨text, 0, depth⟩ = .ok value after

/-- What a step accepts of the values of the grammar are those of its language. -/
theorem accepts_iff (sound : Sound item depth language) (complete : Complete item depth language)
    (within : ∀ value text, language value text → IsValue text) (isValue : IsValue text) :
    Accepts item depth value text ↔ language value text := by
  have whole : Passes ⟨text, 0, depth⟩ ([] ++ text) ⟨[], text.length, depth⟩ :=
    ⟨(List.append_nil _).symm, by simp, rfl⟩
  have ends : Ends text [] := ends_of_space .nil
  constructor
  · rintro ⟨after, read⟩
    obtain ⟨space, token, isSpace, valid, passes, tokenEnds⟩ := sound rfl read
    obtain ⟨rfl, _⟩ :=
      value_unique isSpace (within _ _ valid) passes tokenEnds .nil isValue whole ends
    exact valid
  · intro valid
    exact ⟨_, complete rfl ⟨[], text, .nil, valid, whole, ends⟩⟩

end TypedJson.Reader
