import TypedJson.Proofs.Reader.Skip

/-! Typed arrays and objects. The fields of a record are read in the order of the members, so what
an object does to the record is told by one step a member: a member of a known name is placed at
its index, unless another was before it, and any other member leaves the record as it is. -/
namespace TypedJson.Reader
open Grammar

/-- The arrays whose elements spell the values. -/
def ArrayText {α : Type} (language : α → List UInt8 → Prop) (values : List α)
    (text : List UInt8) : Prop :=
  ∃ texts body, text = Ascii.openBracket :: body ∧ Elements true texts body ∧
    List.Forall₂ language values texts

/-- What the members of an object do to a record and to the indexes seen. -/
inductive Gathers {ρ : Type} (names : List String) (inner : List UInt8 → Prop)
    (place : Nat → ρ → ρ → List UInt8 → Prop) :
    List Nat → ρ → List (String × List UInt8) → List Nat → ρ → Prop where
  | done : Gathers names inner place seen record [] seen record
  | ignored : Ignored names inner member →
      Gathers names inner place seen record members seen' record' →
      Gathers names inner place seen record (member :: members) seen' record'
  | placed : names.idxOf? name = some index → index ∉ seen → place index record next value →
      Gathers names inner place (index :: seen) next members seen' record' →
      Gathers names inner place seen record ((name, value) :: members) seen' record'

/-- The objects whose members make a whole record out of an earlier one. -/
def ObjectText {ρ : Type} (names : List String) (inner : List UInt8 → Prop)
    (place : Nat → ρ → ρ → List UInt8 → Prop) (record record' : ρ) (text : List UInt8) : Prop :=
  ∃ members body seen, text = Ascii.openBrace :: body ∧ Members true members body ∧
    Gathers names inner place [] record members seen record' ∧ ∀ index < names.length, index ∈ seen

/-- Whether a member stands for the name at an index. -/
def resolves (names : List String) (index : Nat) (member : String × List UInt8) : Bool :=
  names.idxOf? member.1 == some index

/-- The members of a record in any order: each name is met once, by a member that spells its field,
and the values of other members are skipped. -/
def Fills (names : List String) (inner : List UInt8 → Prop) (spells : Nat → List UInt8 → Prop)
    (members : List (String × List UInt8)) : Prop :=
  (∀ member ∈ members, names.idxOf? member.1 = none → inner member.2) ∧
    ∀ index < names.length, ∃ member, members.filter (resolves names index) = [member] ∧
      spells index member.2

variable {α ρ : Type} {before after : Reader} {text : List UInt8} {limit depth budget : Nat}
  {item : Read α} {language : α → List UInt8 → Prop} {names : List String}
  {members passed : List (String × List UInt8)} {seen seen' : List Nat} {record record' : ρ}
  {field : Nat → ρ → Read ρ} {inner : List UInt8 → Prop}
  {place : Nat → ρ → ρ → List UInt8 → Prop}

theorem readArray_sound (sound : depth + 1 < limit → Sound item (depth + 1) language) :
    Sound (readArray limit item) depth fun values text =>
      depth + 1 < limit ∧ ArrayText language values text := by
  intro before values after same read
  obtain ⟨_, opened, opens, read⟩ := run_bind_ok read
  obtain ⟨values, last, items, read⟩ := run_bind_ok read
  obtain ⟨_, _, closes, read⟩ := run_bind_ok read
  obtain ⟨shallow, space, inside, isSpace, bracketPasses, rfl⟩ := opens_sound opens
  have level : inside.depth = depth := bracketPasses.depth.trans same
  have deeper : inside.within.depth = depth + 1 := by rw [Reader.within, level]
  obtain ⟨texts, body, valids, eachValid, more⟩ :=
    elements_sound (sound (same ▸ shallow)) deeper items
  obtain ⟨closed, rfl, bodyPasses⟩ := more.of_within
  obtain ⟨rfl, rfl⟩ := EStateM.Result.ok.inj closes
  obtain ⟨rfl, rfl⟩ := EStateM.Result.ok.inj read
  refine ⟨space, _, isSpace, ⟨same ▸ shallow, texts, body, rfl, valids, eachValid⟩, ?_,
    ends_of_head Ascii.openBracket rfl rfl⟩
  have whole := bracketPasses.trans bodyPasses
  rwa [List.append_assoc] at whole

theorem readArray_complete (complete : depth + 1 < limit → Complete item (depth + 1) language)
    (starts : ∀ value text, language value text → Starts text) :
    Complete (readArray limit item) depth fun values text =>
      depth + 1 < limit ∧ ArrayText language values text := by
  rintro before values after same ⟨space, _, isSpace,
    ⟨shallow, texts, body, rfl, valids, eachValid⟩, passes, _⟩
  rw [List.append_cons] at passes
  obtain ⟨inside, bracketPasses, bodyPasses⟩ := passes.split
  have level : inside.depth = depth := bracketPasses.depth.trans same
  have deeper : inside.within.depth = depth + 1 := by rw [Reader.within, level]
  have opens : (openArray limit).run before = .ok () inside.within :=
    opens_complete (same.symm ▸ shallow) isSpace bracketPasses rfl
  have items := elements_complete (complete shallow) starts deeper valids eachValid
    bodyPasses.within
  rw [readArray, run_bind_of_ok opens, run_bind_of_ok items]
  rfl

/-! Objects -/

theorem Gathers.ignore (ignored : ∀ member ∈ passed, Ignored names inner member)
    (gathers : Gathers names inner place seen record members seen' record') :
    Gathers names inner place seen record (passed ++ members) seen' record' := by
  induction passed with
  | nil => exact gathers
  | cons member passed ih =>
    obtain ⟨first, ignored⟩ := List.forall_mem_cons.mp ignored
    exact .ignored first (ih ignored)

theorem membersFrom_sound
    (sound : ∀ index record, index < names.length → Sound (field index record) depth
      (place index record))
    (same : before.depth = depth)
    (read : (membersFrom limit names field budget seen record).run before =
      .ok (seen', record') after) :
    ∃ members text, Members (seen.length == 0) members text ∧
      Gathers names (ValueWithin (room limit depth)) place seen record members seen' record' ∧
      Passes before text after := by
  induction budget generalizing before seen record with
  | zero => contradiction
  | succ budget ih =>
    obtain ⟨found, middle, searched, read⟩ := run_bind_ok read
    obtain ⟨_, _, got, searched⟩ := run_bind_ok searched
    obtain ⟨rfl, rfl⟩ := EStateM.Result.ok.inj got
    obtain ⟨passed, last, front, tail, isPassed, ignored, stops, passes⟩ :=
      keyWith_sound skip_sound same searched
    cases stops with
    | close isSpace =>
      obtain ⟨same, rfl⟩ := EStateM.Result.ok.inj read
      obtain ⟨rfl, rfl⟩ := Prod.mk.inj same
      have valids := isPassed.append_members (.close isSpace)
      exact ⟨_, _, valids, .ignore ignored .done, passes⟩
    | @found name index heading isHeading known =>
      simp only at read
      split at read
      case isTrue => contradiction
      case isFalse unseen =>
        obtain ⟨next, between, value, read⟩ := run_bind_ok read
        have level : middle.depth = depth := passes.depth.trans same
        obtain ⟨space, text, isSpace, placed, crosses, _⟩ :=
          sound _ record (List.idxOf?_eq_some_iff.mp known).1 level value
        obtain ⟨members, rest, valids, gathers, more⟩ := ih (crosses.depth.trans level) read
        refine ⟨_, _, isPassed.append_members (.cons isHeading isSpace valids),
          .ignore ignored (.placed known unseen placed gathers), ?_⟩
        have whole := (passes.trans crosses).trans more
        simpa only [List.append_assoc] using whole

/-- The members up to the first that is placed are passed in one search. -/
theorem Gathers.split (gathers : Gathers names inner place seen record members seen' record') :
    ∃ passed rest, members = passed ++ rest ∧ (∀ member ∈ passed, Ignored names inner member) ∧
      (rest = [] ∧ seen' = seen ∧ record' = record ∨
        ∃ name index next value others, rest = (name, value) :: others ∧
          names.idxOf? name = some index ∧ index ∉ seen ∧ place index record next value ∧
          Gathers names inner place (index :: seen) next others seen' record') := by
  induction gathers with
  | done => exact ⟨[], [], rfl, nofun, .inl ⟨rfl, rfl, rfl⟩⟩
  | ignored first _ ih =>
    obtain ⟨passed, rest, rfl, ignored, cases⟩ := ih
    exact ⟨_ :: passed, rest, rfl, List.forall_mem_cons.mpr ⟨first, ignored⟩, cases⟩
  | placed known unseen placed gathers =>
    exact ⟨[], _, rfl, nofun, .inr ⟨_, _, _, _, _, rfl, known, unseen, placed, gathers⟩⟩

theorem membersFrom_complete
    (complete : ∀ index record, index < names.length → Complete (field index record) depth
      (place index record))
    (same : before.depth = depth) (valids : Members (seen.length == 0) members text)
    (gathers : Gathers names (ValueWithin (room limit depth)) place seen record members seen'
      record')
    (turns : members.length < budget) (passes : Passes before text after) :
    (membersFrom limit names field budget seen record).run before = .ok (seen', record') after := by
  induction budget generalizing before seen record members text with
  | zero => contradiction
  | succ budget ih =>
    obtain ⟨passed, rest, rfl, ignored, cases⟩ := gathers.split
    have enough : passed.length < before.unread.length := by
      have shorter := valids.length_lt
      rw [List.length_append] at shorter
      rw [passes.unread, List.length_append]
      omega
    obtain ⟨last, front, back, rfl, isPassed, following⟩ := valids.split
    have search {found tail middle} (stops : Stops names last found tail)
        (passes : Passes before (front ++ tail) middle) :
        (key limit names seen.length).run before = .ok found middle := by
      rw [key, run_bind_of_ok run_get]
      exact keyWith_complete skip_complete same isPassed rfl ignored stops enough passes
    rcases cases with ⟨rfl, rfl, rfl⟩ | ⟨name, index, next, value, others, rfl, known, unseen,
      placed, gathers⟩
    · cases following with
      | close isSpace =>
        rw [membersFrom, run_bind_of_ok (search (.close isSpace) passes)]
        rfl
    · cases following with
      | @cons _ _ heading space _ rest _ isHeading isSpace following =>
        simp only [List.append_assoc] at passes
        rw [← List.append_assoc] at passes
        obtain ⟨middle, passes, valuePasses⟩ := passes.split
        rw [← List.append_assoc] at valuePasses
        obtain ⟨between, valuePasses, more⟩ := valuePasses.split
        have level : middle.depth = depth := passes.depth.trans same
        have ends : Ends value between.unread := by
          rw [more.unread]
          exact ends_of_closes following.closes
        have read := complete index record (List.idxOf?_eq_some_iff.mp known).1 level
          ⟨space, value, isSpace, placed, valuePasses, ends⟩
        have fewer : others.length < budget := by
          simp only [List.length_append, List.length_cons] at turns
          omega
        have notFirst : Members ((index :: seen).length == 0) others rest := following
        have others := ih (valuePasses.depth.trans level) notFirst gathers fewer more
        rw [membersFrom, run_bind_of_ok (search (.found isHeading known) passes)]
        simp only [unseen, if_false]
        rw [run_bind_of_ok read, others]

theorem Fills.forall {spells : Nat → List UInt8 → Prop} (fills : Fills names inner spells members)
    (weaker : ∀ index text, spells index text → inner text) :
    ∀ member ∈ members, inner member.2 := by
  intro member found
  cases known : names.idxOf? member.1 with
  | none => exact fills.1 member found known
  | some index =>
    obtain ⟨only, same, spelled⟩ := fills.2 index (List.idxOf?_eq_some_iff.mp known).1
    have resolved : member ∈ members.filter (resolves names index) :=
      List.mem_filter.mpr ⟨found, by simp [resolves, known]⟩
    rw [same, List.mem_singleton] at resolved
    exact weaker index _ (resolved ▸ spelled)

theorem firstMissing?_eq_none_iff :
    firstMissing? names seen = none ↔ ∀ index < names.length, index ∈ seen := by
  rw [firstMissing?, Option.map_eq_none_iff, List.find?_eq_none]
  constructor
  · intro none index bound
    have := none (names[index], index) (List.mk_mem_zipIdx_iff_getElem?.mpr (by simp [bound]))
    simpa using this
  · rintro all ⟨name, index⟩ member
    have bound := (List.getElem?_eq_some_iff.mp (List.mk_mem_zipIdx_iff_getElem?.mp member)).1
    simp [all index bound]

theorem readObject_sound
    (sound : depth + 1 < limit → ∀ index record, index < names.length →
      Sound (field index record) (depth + 1) (place index record)) :
    Sound (readObject limit names field record) depth fun record' text => depth + 1 < limit ∧
      ObjectText names (ValueWithin (room limit (depth + 1))) place record record' text := by
  intro before record' after same read
  obtain ⟨_, opened, opens, read⟩ := run_bind_ok read
  obtain ⟨_, _, got, read⟩ := run_bind_ok read
  obtain ⟨rfl, rfl⟩ := EStateM.Result.ok.inj got
  obtain ⟨⟨seen, gathered⟩, last, walk, read⟩ := run_bind_ok read
  obtain ⟨_, _, closes, read⟩ := run_bind_ok read
  obtain ⟨shallow, space, inside, isSpace, bracePasses, rfl⟩ := opens_sound opens
  have level : inside.depth = depth := bracePasses.depth.trans same
  have deeper : inside.within.depth = depth + 1 := by rw [Reader.within, level]
  obtain ⟨members, body, valids, gathers, more⟩ :=
    membersFrom_sound (sound (same ▸ shallow)) deeper walk
  obtain ⟨closed, rfl, bodyPasses⟩ := more.of_within
  obtain ⟨rfl, rfl⟩ := EStateM.Result.ok.inj closes
  split at read
  case h_1 => contradiction
  case h_2 none =>
    obtain ⟨rfl, rfl⟩ := EStateM.Result.ok.inj read
    refine ⟨space, _, isSpace, ⟨same ▸ shallow, members, body, seen, rfl, valids, gathers,
      firstMissing?_eq_none_iff.mp none⟩, ?_, ends_of_head Ascii.openBrace rfl rfl⟩
    have whole := bracePasses.trans bodyPasses
    rwa [List.append_assoc] at whole

/-- An object that is read to its end lacks the first declared name that none of its members has,
or else is read as the record that they make. -/
theorem readObject_gathers {space body : List UInt8} {members : List (String × List UInt8)}
    (complete : ∀ index record, index < names.length →
      Complete (field index record) (depth + 1) (place index record))
    (same : before.depth = depth) (shallow : depth + 1 < limit) (isSpace : Space space)
    (valids : Members true members body)
    (gathers : Gathers names (ValueWithin (room limit (depth + 1))) place [] record members seen
      record')
    (passes : Passes before (space ++ Ascii.openBrace :: body) after) :
    (readObject limit names field record).run before =
      match firstMissing? names seen with
      | some name => .error ⟨SchemaError.missingKey, some name, after.offset⟩ after
      | none => .ok record' after := by
  rw [List.append_cons] at passes
  obtain ⟨inside, bracePasses, bodyPasses⟩ := passes.split
  have level : inside.depth = depth := bracePasses.depth.trans same
  have deeper : inside.within.depth = depth + 1 := by rw [Reader.within, level]
  have opens : (openObject limit).run before = .ok () inside.within :=
    opens_complete (same.symm ▸ shallow) isSpace bracePasses rfl
  have turns : members.length < inside.within.unread.length := by
    have shorter := valids.length_lt
    rw [bodyPasses.within.unread, List.length_append]
    omega
  have isFirst : Members (([] : List Nat).length == 0) members body := valids
  have walk := membersFrom_complete complete deeper isFirst gathers turns bodyPasses.within
  have closes : closeObject.run after.within = .ok () after := rfl
  rw [readObject, run_bind_of_ok opens, run_bind_of_ok run_get, run_bind_of_ok walk,
    run_bind_of_ok closes]
  cases firstMissing? names seen <;> rfl

theorem readObject_complete
    (complete : depth + 1 < limit → ∀ index record, index < names.length →
      Complete (field index record) (depth + 1) (place index record)) :
    Complete (readObject limit names field record) depth fun record' text => depth + 1 < limit ∧
      ObjectText names (ValueWithin (room limit (depth + 1))) place record record' text := by
  rintro before record' after same ⟨space, _, isSpace,
    ⟨shallow, members, body, seen, rfl, valids, gathers, all⟩, passes, _⟩
  rw [readObject_gathers (complete shallow) same shallow isSpace valids gathers passes,
    firstMissing?_eq_none_iff.mpr all]

/-! The order of the members does not matter. Below a record is looked at field by field: `look` is
the field at an index, which tells all that `spells` asks of the record. -/

/-- A field is read in place of an earlier one if the other fields stay what they are. -/
def Replaces {β : Type} (look : Nat → ρ → β) (spells : Nat → ρ → List UInt8 → Prop) (index : Nat)
    (record record' : ρ) (text : List UInt8) : Prop :=
  spells index record' text ∧ ∀ other ≠ index, look other record = look other record'

variable {β : Type} {look : Nat → ρ → β} {spells : Nat → ρ → List UInt8 → Prop} {index : Nat}

theorem filter_unknown {member : String × List UInt8} (unknown : names.idxOf? member.1 = none)
    (index : Nat) : (member :: members).filter (resolves names index) =
      members.filter (resolves names index) := by
  rw [List.filter_cons_of_neg]
  simp [resolves, unknown]

theorem filter_known {member : String × List UInt8} (known : names.idxOf? member.1 = some index) :
    (member :: members).filter (resolves names index) =
      member :: members.filter (resolves names index) := by
  rw [List.filter_cons_of_pos]
  simp [resolves, known]

theorem filter_other {member : String × List UInt8} {other : Nat}
    (known : names.idxOf? member.1 = some other) (differs : index ≠ other) :
    (member :: members).filter (resolves names index) =
      members.filter (resolves names index) := by
  rw [List.filter_cons_of_neg]
  simp [resolves, known, Ne.symm differs]

/-- A field that was seen stays as it is, and one that was not is that of the member for it. -/
theorem Gathers.fields
    (respects : ∀ index record record' text, look index record = look index record' →
      spells index record text → spells index record' text)
    (gathers : Gathers names inner (Replaces look spells) seen record members seen' record') :
    (∀ index ∈ seen, members.filter (resolves names index) = [] ∧
      look index record = look index record') ∧
    ∀ index ∈ seen', index ∉ seen → ∃ member, members.filter (resolves names index) = [member] ∧
      spells index record' member.2 := by
  induction gathers with
  | done => exact ⟨fun _ _ => ⟨rfl, rfl⟩, fun _ member new => absurd member new⟩
  | @ignored member seen record members seen' record' ignored _ ih =>
    simpa only [filter_unknown ignored.1] using ih
  | @placed name placedIndex seen record next value members seen' record' known unseen placed _ ih =>
    obtain ⟨old, new⟩ := ih
    constructor
    · intro index member
      have differs : index ≠ placedIndex := fun same => unseen (same ▸ member)
      obtain ⟨absent, kept⟩ := old index (List.mem_cons_of_mem _ member)
      exact ⟨(filter_other known differs).trans absent, (placed.2 index differs).trans kept⟩
    · intro index member unseen'
      by_cases same : index = placedIndex
      · subst same
        obtain ⟨absent, kept⟩ := old index List.mem_cons_self
        refine ⟨(name, value), ?_, respects _ _ _ _ kept placed.1⟩
        rw [filter_known known, absent]
      · obtain ⟨found, only, spelled⟩ := new index member (by simp [same, unseen'])
        exact ⟨found, (filter_other known same).trans only, spelled⟩

theorem Gathers.skips
    (gathers : Gathers names inner place seen record members seen' record') :
    ∀ member ∈ members, names.idxOf? member.1 = none → inner member.2 := by
  induction gathers with
  | done => nofun
  | ignored ignored _ ih => exact List.forall_mem_cons.mpr ⟨fun _ => ignored.2, ih⟩
  | placed known _ _ _ ih =>
    exact List.forall_mem_cons.mpr ⟨fun unknown => by simp [known] at unknown, ih⟩

/-- Members in any order make a record out of any earlier one. -/
theorem gathers_of_fields
    (copies : ∀ index source record, ∃ next, look index next = look index source ∧
      ∀ other ≠ index, look other record = look other next)
    (determined : ∀ record record', (∀ index < names.length,
      look index record = look index record') → record = record')
    (respects : ∀ index record record' text, look index record = look index record' →
      spells index record text → spells index record' text)
    (skips : ∀ member ∈ members, names.idxOf? member.1 = none → inner member.2)
    (old : ∀ index ∈ seen, members.filter (resolves names index) = [] ∧
      look index record = look index record')
    (new : ∀ index < names.length, index ∉ seen → ∃ member,
      members.filter (resolves names index) = [member] ∧ spells index record' member.2) :
    ∃ seen', Gathers names inner (Replaces look spells) seen record members seen' record' ∧
      ∀ index < names.length, index ∈ seen' := by
  induction members generalizing seen record with
  | nil =>
    have all : ∀ index < names.length, index ∈ seen := by
      intro index bound
      by_contra unseen
      obtain ⟨_, only, _⟩ := new index bound unseen
      contradiction
    obtain rfl := determined record record' fun index bound => (old index (all index bound)).2
    exact ⟨seen, .done, all⟩
  | cons member members ih =>
    obtain ⟨name, value⟩ := member
    obtain ⟨skip, skips⟩ := List.forall_mem_cons.mp skips
    cases known : names.idxOf? name with
    | none =>
      simp only [filter_unknown (show names.idxOf? (name, value).1 = none from known)] at old new
      obtain ⟨seen', gathers, all⟩ := ih skips old new
      exact ⟨seen', .ignored ⟨known, skip known⟩ gathers, all⟩
    | some placedIndex =>
      have unseen : placedIndex ∉ seen := by
        intro member
        have absent := (old placedIndex member).1
        rw [filter_known known] at absent
        contradiction
      obtain ⟨found, only, spelled⟩ :=
        new placedIndex (List.idxOf?_eq_some_iff.mp known).1 unseen
      rw [filter_known known, List.cons.injEq] at only
      obtain ⟨rfl, absent⟩ := only
      obtain ⟨next, copied, kept⟩ := copies placedIndex record' record
      have old' : ∀ index ∈ placedIndex :: seen,
          members.filter (resolves names index) = [] ∧ look index next = look index record' := by
        refine List.forall_mem_cons.mpr ⟨⟨absent, copied⟩, fun index member => ?_⟩
        have differs : index ≠ placedIndex := fun same => unseen (same ▸ member)
        obtain ⟨absent, same⟩ := old index member
        exact ⟨(filter_other known differs).symm.trans absent,
          (kept index differs).symm.trans same⟩
      have new' : ∀ index < names.length, index ∉ placedIndex :: seen → ∃ member,
          members.filter (resolves names index) = [member] ∧ spells index record' member.2 := by
        intro index bound unseen'
        have differs := List.ne_of_not_mem_cons unseen'
        obtain ⟨found, only, spelled⟩ := new index bound (List.not_mem_of_not_mem_cons unseen')
        exact ⟨found, (filter_other known differs).symm.trans only, spelled⟩
      obtain ⟨seen', gathers, all⟩ := ih skips old' new'
      exact ⟨seen', .placed known unseen ⟨respects _ _ _ _ copied.symm spelled, kept⟩ gathers, all⟩

end TypedJson.Reader
