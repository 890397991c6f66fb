import Mathlib.Logic.Relation
import TypedJson.Proofs.Reader.Record

/-! How an object is examined. Its members are taken in the order of the document, and the first at
which something is wrong decides the error; only an object that is read to its end can lack a field.
The search for the next declared name and the loop over the fields found take turns in this, so the
walk is told here member by member, whether a member is searched past or placed. -/
namespace TypedJson.Reader
open Grammar

/-- An object under examination: the names of its members so far, the last one first, what became of
the record, and the reader after them. -/
structure Exam (ρ : Type) where
  met : List String
  record : ρ
  reader : Reader

variable {ρ : Type}

/-- The places of the declared names that were met. -/
def Exam.seen (names : List String) (exam : Exam ρ) : List Nat := exam.met.filterMap names.idxOf?

/-- The next member is read up to and with the colon after its name. -/
def Exam.Names (exam : Exam ρ) (name : String) (colon : Reader) : Prop :=
  ∃ text, Heading (exam.met.length == 0) name text ∧ Passes exam.reader text colon

/-- The object is closed, its closing brace read. -/
def Exam.Closes (exam : Exam ρ) (closed : Reader) : Prop :=
  ∃ space, Space space ∧ Passes exam.reader (space ++ [Ascii.closeBrace]) closed.within

/-- No member has the declared name at a place, the first of which that is so. -/
structure Exam.Lacks (names : List String) (exam : Exam ρ) (index : Nat) : Prop where
  bound : index < names.length
  unseen : index ∉ exam.seen names
  seen : ∀ earlier < index, earlier ∈ exam.seen names

section
variable (limit : Nat) (names : List String) (field : Nat → ρ → Read ρ)

/-- One more member is passed: it is searched past, or its value is placed in the record. -/
inductive Exam.Step (exam : Exam ρ) : Exam ρ → Prop where
  | skipped {name : String} {colon after : Reader} : exam.Names name colon →
      names.idxOf? name = none → (skip limit).run colon = .ok () after →
        Exam.Step exam ⟨name :: exam.met, exam.record, after⟩
  | placed {name : String} {index : Nat} {colon after : Reader} {record : ρ} :
      exam.Names name colon → names.idxOf? name = some index → index ∉ exam.seen names →
        (field index exam.record).run colon = .ok record after →
          Exam.Step exam ⟨name :: exam.met, record, after⟩

/-- The next member is at fault. A name met twice is reported after its colon; the fault of a
heading or of a value is what reading it ends with. -/
inductive Exam.Fails (exam : Exam ρ) : Error → Reader → Prop where
  | heading {error : Error} {after : Reader} :
      (memberName exam.met.length).run exam.reader = .error error after →
        Exam.Fails exam error after
  | duplicate {name : String} {index : Nat} {colon : Reader} : exam.Names name colon →
      names.idxOf? name = some index → index ∈ exam.seen names →
        Exam.Fails exam ⟨SchemaError.duplicateKey, some ("duplicate " ++ name), colon.offset⟩ colon
  | skipped {name : String} {colon after : Reader} {error : Error} : exam.Names name colon →
      names.idxOf? name = none → (skip limit).run colon = .error error after →
        Exam.Fails exam error after
  | placed {name : String} {index : Nat} {colon after : Reader} {error : Error} :
      exam.Names name colon → names.idxOf? name = some index → index ∉ exam.seen names →
        (field index exam.record).run colon = .error error after → Exam.Fails exam error after

/-- How the object ends, once the members so far are passed. -/
inductive Exam.Concludes (exam : Exam ρ) : EStateM.Result Error Reader ρ → Prop where
  | fault {error : Error} {after : Reader} : exam.Fails limit names field error after →
      Exam.Concludes exam (.error error after)
  | missing {closed : Reader} {index : Nat} {name : String} : exam.Closes closed →
      exam.Lacks names index → names[index]? = some name →
        Exam.Concludes exam (.error ⟨SchemaError.missingKey, some name, closed.offset⟩ closed)
  | complete {closed : Reader} : exam.Closes closed →
      (∀ index < names.length, index ∈ exam.seen names) →
        Exam.Concludes exam (.ok exam.record closed)

/-- From one point of the examination on, some members are passed. -/
abbrev Exam.Reaches : Exam ρ → Exam ρ → Prop := Relation.ReflTransGen (Exam.Step limit names field)

end

/-- What a step reads it reads again, whatever comes after the entry that it read. -/
def Replays {α : Type} (item : Read α) : Prop :=
  ∀ ⦃before value after⦄, item.run before = .ok value after → ∃ text, Passes before text after ∧
    ∀ rest, (∀ byte, rest.head? = some byte → closesEntry byte = true) →
      item.run { before with unread := text ++ rest } = .ok value { after with unread := rest }

theorem replays_of {α : Type} {item : Read α} {language : Nat → α → List UInt8 → Prop}
    (sound : ∀ depth, Sound item depth (language depth))
    (complete : ∀ depth, Complete item depth (language depth)) : Replays item := by
  intro before value after read
  obtain ⟨space, text, isSpace, valid, passes, _⟩ := sound before.depth rfl read
  refine ⟨_, passes, fun rest closes => complete before.depth rfl ?_⟩
  exact ⟨space, text, isSpace, valid, ⟨rfl, passes.offset, passes.depth⟩, ends_of_closes closes⟩

theorem skip_replays (limit : Nat) : Replays (skip limit) :=
  replays_of (fun _ => skip_sound) fun _ => skip_complete

variable {limit budget count : Nat} {names : List String} {field : Nat → ρ → Read ρ}
  {exam next last : Exam ρ} {before colon closed : Reader} {name : String} {skip' : Read Unit}

/-! The turns of the loops are enough. -/

theorem memberName_end (ended : before.unread = []) :
    (memberName count).run before =
      .error ⟨SyntaxError.missingMemberSeparator, none, before.offset⟩ before := by
  rw [memberName, run_bind_of_ok (peekToken_end .nil (.refl before) ended)]
  rfl

/-- Only the first member has no comma before it. -/
theorem memberName_congr {count' : Nat} (same : (count == 0) = (count' == 0)) :
    memberName count = memberName count' := by
  have zero : count = 0 ↔ count' = 0 := by
    rw [← beq_iff_eq, same, beq_iff_eq]
  simp only [memberName, ne_eq, zero]

theorem keyWith_turn (enough : before.unread.length ≤ budget) :
    (keyWith skip' names budget count).run before = (do
      match ← memberName count with
      | none => return none
      | some name =>
        match names.idxOf? name with
        | some index => return some index
        | none => do
          skip'
          keyWith skip' names (budget - 1) (count + 1)).run before := by
  cases budget with
  | succ => rfl
  | zero =>
    have ended : before.unread = [] := List.eq_nil_of_length_eq_zero (Nat.le_zero.mp enough)
    rw [EStateM.run_bind, memberName_end ended]
    rfl

/-- What is done with what a search found: the value of a declared name is placed, and the search
goes on for at most `budget` fields more. -/
def placeFound (limit : Nat) (names : List String) (field : Nat → ρ → Read ρ) (budget : Nat)
    (seen : List Nat) (record : ρ) : Option Nat → Read (List Nat × ρ)
  | none => return (seen, record)
  | some index =>
    if index ∈ seen then do
      failAt (← get).offset SchemaError.duplicateKey
        (some ("duplicate " ++ names.getD index ""))
    else do
      membersFrom limit names field budget (index :: seen) (← field index record)

theorem membersFrom_turn {seen : List Nat} {record : ρ} (enough : before.unread.length ≤ budget) :
    (membersFrom limit names field budget seen record).run before =
      (keyWith (skip limit) names before.unread.length seen.length >>=
        placeFound limit names field (budget - 1) seen record).run before := by
  cases budget with
  | succ budget =>
    rw [membersFrom, key, EStateM.run_bind, run_bind_of_ok run_get, EStateM.run_bind]
    split
    case h_1 found middle _ => cases found <;> rfl
    case h_2 => rfl
  | zero =>
    have ended : before.unread = [] := List.eq_nil_of_length_eq_zero (Nat.le_zero.mp enough)
    rw [ended]
    rfl

/-! Examining member by member ends as the loops do. -/

theorem Exam.Names.read (named : exam.Names name colon)
    (first : (count == 0) = (exam.met.length == 0)) :
    (memberName count).run exam.reader = .ok (some name) colon := by
  obtain ⟨text, heading, passes⟩ := named
  rw [← first] at heading
  exact memberName_next heading passes

section
variable {α : Type} {k : Option Nat → Read α} {turns : Nat}

theorem Exam.Names.search (named : exam.Names name colon)
    (first : (count == 0) = (exam.met.length == 0)) (enough : exam.reader.unread.length ≤ turns) :
    (keyWith skip' names turns count >>= k).run exam.reader =
      (match names.idxOf? name with
      | some index => k (some index)
      | none => skip' >>= fun _ => keyWith skip' names (turns - 1) (count + 1) >>= k).run colon := by
  rw [EStateM.run_bind, keyWith_turn enough, run_bind_of_ok (named.read first)]
  dsimp only
  cases names.idxOf? name with
  | some index => rfl
  | none =>
    simp only [EStateM.run_bind]
    cases skip'.run colon <;> rfl

end

/-- How the loops leave an object, once the members so far are passed. -/
inductive Exam.Leaves (limit : Nat) (names : List String) (field : Nat → ρ → Read ρ)
    (exam : Exam ρ) : EStateM.Result Error Reader (List Nat × ρ) → Prop where
  | fault {error : Error} {after : Reader} : exam.Fails limit names field error after →
      Exam.Leaves limit names field exam (.error error after)
  | closed {closed : Reader} : exam.Closes closed →
      Exam.Leaves limit names field exam (.ok (exam.seen names, exam.record) closed.within)

variable {left : EStateM.Result Error Reader (List Nat × ρ)} {turns : Nat}

theorem Exam.Leaves.search (leaves : exam.Leaves limit names field left)
    (first : (count == 0) = (exam.met.length == 0)) (enough : exam.reader.unread.length ≤ turns) :
    (keyWith (skip limit) names turns count >>=
      placeFound limit names field budget (exam.seen names) exam.record).run exam.reader = left := by
  cases leaves with
  | fault fails =>
    cases fails with
    | heading failed =>
      rw [EStateM.run_bind, keyWith_turn enough, memberName_congr first, EStateM.run_bind, failed]
    | duplicate named known seen =>
      obtain ⟨bound, same, _⟩ := List.idxOf?_eq_some_iff.mp known
      rw [named.search first enough, known]
      dsimp only
      rw [placeFound, if_pos seen, List.getD_eq_getElem?_getD, List.getElem?_eq_getElem bound, same]
      rfl
    | skipped named unknown failed =>
      rw [named.search first enough, unknown]
      dsimp only
      rw [EStateM.run_bind, failed]
    | placed named known unseen failed =>
      rw [named.search first enough, known]
      dsimp only
      rw [placeFound, if_neg unseen, EStateM.run_bind, failed]
  | closed closes =>
    obtain ⟨space, isSpace, passes⟩ := closes
    rw [EStateM.run_bind, keyWith_turn enough, run_bind_of_ok (memberName_close isSpace passes)]
    rfl

theorem Exam.seen_skipped {record : ρ} {after : Reader} (unknown : names.idxOf? name = none) :
    Exam.seen names ⟨name :: exam.met, record, after⟩ = exam.seen names :=
  List.filterMap_cons_none unknown

theorem Exam.seen_placed {index : Nat} {record : ρ} {after : Reader}
    (known : names.idxOf? name = some index) :
    Exam.seen names ⟨name :: exam.met, record, after⟩ = index :: exam.seen names :=
  List.filterMap_cons_some known

/-- The values of all fields are read again whatever comes after them. -/
abbrev FieldsReplay (names : List String) (field : Nat → ρ → Read ρ) : Prop :=
  ∀ index record, index < names.length → Replays (field index record)

/-- What may come after the members of an examination: after a value, the end of an entry. -/
def Exam.Follows (exam : Exam ρ) (rest : List UInt8) : Prop :=
  exam.met ≠ [] → ∀ byte, rest.head? = some byte → closesEntry byte = true

/-- The same point of the examination with other bytes to come. -/
def Exam.onto (exam : Exam ρ) (unread : List UInt8) : Exam ρ :=
  { exam with reader := { exam.reader with unread } }

theorem Exam.Names.replay (named : exam.Names name colon) :
    ∃ text, Passes exam.reader text colon ∧ 0 < text.length ∧ ∀ rest,
      exam.Follows (text ++ rest) ∧
        (exam.onto (text ++ rest)).Names name { colon with unread := rest } := by
  obtain ⟨text, heading, passes⟩ := named
  refine ⟨text, passes, ?_, fun rest =>
    ⟨fun met => ?_, text, heading, rfl, passes.offset, passes.depth⟩⟩
  · obtain ⟨_, _, _⟩ := heading
    simp only [List.length_append, List.length_cons]
    omega
  · rw [beq_eq_false_iff_ne.mpr (mt List.eq_nil_of_length_eq_zero met)] at heading
    exact heading.closes

/-- The heading of a member and its value are read again together. -/
theorem Exam.Names.replay_value {α : Type} {item : Read α} {value : α} {after : Reader}
    (named : exam.Names name colon) (replays : Replays item)
    (read : item.run colon = .ok value after) :
    ∃ text, Passes exam.reader text after ∧ 0 < text.length ∧ ∀ rest,
      exam.Follows (text ++ rest) ∧
        ((∀ byte, rest.head? = some byte → closesEntry byte = true) →
          ∃ colon, (exam.onto (text ++ rest)).Names name colon ∧
            item.run colon = .ok value { after with unread := rest }) := by
  obtain ⟨heading, headingPasses, positive, heads⟩ := named.replay
  obtain ⟨text, passes, again⟩ := replays read
  refine ⟨_, headingPasses.trans passes, Nat.lt_of_lt_of_le positive (by simp), fun rest => ?_⟩
  rw [List.append_assoc]
  exact ⟨(heads _).1, fun closes => ⟨_, (heads _).2, again rest closes⟩⟩

/-- A member takes some bytes, and is passed again whatever comes after it. -/
theorem Exam.Step.replay (replays : FieldsReplay names field)
    (step : exam.Step limit names field next) :
    ∃ text, Passes exam.reader text next.reader ∧ 0 < text.length ∧ ∀ rest,
      exam.Follows (text ++ rest) ∧ (next.Follows rest →
        (exam.onto (text ++ rest)).Step limit names field (next.onto rest)) := by
  cases step with
  | skipped named unknown skipped =>
    obtain ⟨text, passes, positive, again⟩ := named.replay_value (skip_replays limit) skipped
    refine ⟨text, passes, positive, fun rest => ⟨(again rest).1, fun follows => ?_⟩⟩
    obtain ⟨colon, named, skipped⟩ := (again rest).2 (follows (List.cons_ne_nil _ _))
    exact .skipped named unknown skipped
  | placed named known unseen placed =>
    have bound := (List.idxOf?_eq_some_iff.mp known).1
    obtain ⟨text, passes, positive, again⟩ := named.replay_value (replays _ _ bound) placed
    refine ⟨text, passes, positive, fun rest => ⟨(again rest).1, fun follows => ?_⟩⟩
    obtain ⟨colon, named, placed⟩ := (again rest).2 (follows (List.cons_ne_nil _ _))
    exact .placed named known unseen placed

theorem Exam.Step.shorter (replays : FieldsReplay names field)
    (step : exam.Step limit names field next) :
    next.reader.unread.length < exam.reader.unread.length := by
  obtain ⟨text, passes, positive, _⟩ := step.replay replays
  rw [passes.unread, List.length_append]
  exact Nat.lt_add_of_pos_left positive

theorem Exam.Reaches.search (replays : FieldsReplay names field)
    (reaches : Exam.Reaches limit names field exam last) (leaves : last.Leaves limit names field left)
    (first : (count == 0) = (exam.met.length == 0)) (enough : exam.reader.unread.length ≤ turns)
    (fields : exam.reader.unread.length ≤ budget + 1) :
    (keyWith (skip limit) names turns count >>=
      placeFound limit names field budget (exam.seen names) exam.record).run exam.reader = left := by
  -- members that are searched past stay in one search, a placed one begins the next
  induction reaches using Relation.ReflTransGen.head_induction_on
    generalizing turns count budget with
  | refl => exact leaves.search first enough
  | head step _ ih =>
    have shorter := step.shorter replays
    cases step with
    | skipped named unknown skipped =>
      dsimp only at shorter
      rw [named.search first enough, unknown]
      dsimp only
      rw [run_bind_of_ok skipped, ← Exam.seen_skipped unknown]
      exact ih rfl (by dsimp only; omega) (by dsimp only; omega)
    | placed named known unseen placed =>
      dsimp only at shorter
      rw [named.search first enough, known]
      dsimp only
      rw [placeFound, if_neg unseen, run_bind_of_ok placed, membersFrom_turn (by omega),
        ← Exam.seen_placed known]
      refine ih ?_ (Nat.le_refl _) (by dsimp only; omega)
      rw [Exam.seen_placed known]
      rfl

/-- Every member takes some bytes, so an examination comes to an end. -/
theorem Exam.exists_leaves (replays : FieldsReplay names field) (exam : Exam ρ) {depth : Nat}
    (inside : exam.reader.depth = depth + 1) :
    ∃ last, Exam.Reaches limit names field exam last ∧
      ∃ result, last.Leaves limit names field result := by
  generalize size : exam.reader.unread.length = left
  induction left using Nat.strongRecOn generalizing exam with
  | ind left ih =>
    have step {next : Exam ρ} (step : exam.Step limit names field next) :
        ∃ last, Exam.Reaches limit names field exam last ∧
          ∃ result, last.Leaves limit names field result := by
      obtain ⟨_, passes, _⟩ := step.replay replays
      obtain ⟨last, reaches, leaves⟩ :=
        ih _ (size ▸ step.shorter replays) next (passes.depth.trans inside) rfl
      exact ⟨last, .head step reaches, leaves⟩
    cases header : (memberName exam.met.length).run exam.reader with
    | error error after => exact ⟨exam, .refl, _, .fault (.heading header)⟩
    | ok found colon =>
      obtain ⟨text, passes, ⟨rfl, space, isSpace, rfl⟩ | ⟨name, rfl, heading⟩⟩ :=
        memberName_sound header
      · obtain ⟨closed, rfl⟩ : ∃ closed : Reader, colon = closed.within :=
          ⟨{ colon with depth := depth }, by rw [within, ← inside, ← passes.depth]⟩
        exact ⟨exam, .refl, _, .closed ⟨space, isSpace, passes⟩⟩
      · have named : exam.Names name colon := ⟨text, heading, passes⟩
        cases known : names.idxOf? name with
        | none =>
          cases skipped : (skip limit).run colon with
          | error error after => exact ⟨exam, .refl, _, .fault (.skipped named known skipped)⟩
          | ok _ after => exact step (.skipped named known skipped)
        | some index =>
          by_cases seen : index ∈ exam.seen names
          · exact ⟨exam, .refl, _, .fault (.duplicate named known seen)⟩
          · cases placed : (field index exam.record).run colon with
            | error error after => exact ⟨exam, .refl, _, .fault (.placed named known seen placed)⟩
            | ok record after => exact step (.placed named known seen placed)

theorem Exam.Reaches.replay (replays : FieldsReplay names field)
    (reaches : Exam.Reaches limit names field exam last) :
    ∃ text, Passes exam.reader text last.reader ∧ ∀ rest, last.Follows rest →
      Exam.Reaches limit names field (exam.onto (text ++ rest)) (last.onto rest) := by
  induction reaches with
  | refl => exact ⟨[], .refl _, fun rest _ => .refl⟩
  | tail _ step ih =>
    obtain ⟨before, reachPasses, reaches⟩ := ih
    obtain ⟨text, passes, _, steps⟩ := step.replay replays
    refine ⟨_, reachPasses.trans passes, fun rest follows => ?_⟩
    rw [List.append_assoc]
    exact .tail (reaches _ (steps rest).1) ((steps rest).2 follows)

/-! The whole object -/

theorem firstMissing?_eq_some_iff :
    firstMissing? names (exam.seen names) = some name ↔
      ∃ index, exam.Lacks names index ∧ names[index]? = some name := by
  rw [firstMissing?, Option.map_eq_some_iff]
  constructor
  · rintro ⟨⟨_, index⟩, found, rfl⟩
    obtain ⟨unseen, place, bound, same, earlier⟩ := List.find?_eq_some_iff_getElem.mp found
    rw [List.getElem_zipIdx, Prod.mk.injEq, Nat.zero_add] at same
    obtain ⟨rfl, rfl⟩ := same
    rw [List.length_zipIdx] at bound
    refine ⟨place, ⟨bound, by simpa using unseen, fun other before => ?_⟩, ?_⟩
    · simpa using earlier other before
    · exact List.getElem?_eq_getElem bound
  · rintro ⟨index, ⟨bound, unseen, seen⟩, named⟩
    obtain ⟨_, rfl⟩ := List.getElem?_eq_some_iff.mp named
    refine ⟨(names[index], index), List.find?_eq_some_iff_getElem.mpr ⟨by simpa using unseen, index,
      by simpa using bound, by simp, fun earlier before => ?_⟩, rfl⟩
    simpa using seen earlier before

section
variable {space : List UInt8} {inside : Reader} {record : ρ}
  {result : EStateM.Result Error Reader ρ}

theorem Exam.Leaves.run (leaves : exam.Leaves limit names field left)
    (replays : FieldsReplay names field)
    (reaches : Exam.Reaches limit names field ⟨[], record, inside⟩ exam) :
    (membersFrom limit names field inside.unread.length [] record).run inside = left := by
  rw [membersFrom_turn (Nat.le_refl _)]
  exact reaches.search replays leaves rfl (Nat.le_refl _)
    (Nat.sub_le_iff_le_add.mp (Nat.le_refl _))

theorem Exam.Concludes.run (concludes : exam.Concludes limit names field result)
    (replays : FieldsReplay names field)
    (reaches : Exam.Reaches limit names field ⟨[], record, inside.within⟩ exam)
    (shallow : before.depth + 1 < limit) (isSpace : Space space)
    (opens : Passes before (space ++ [Ascii.openBrace]) inside) :
    (readObject limit names field record).run before = result := by
  have opened : (openObject limit).run before = .ok () inside.within :=
    opens_complete shallow isSpace opens rfl
  rw [readObject, run_bind_of_ok opened, run_bind_of_ok run_get]
  cases concludes with
  | fault fails => rw [EStateM.run_bind, (Exam.Leaves.fault fails).run replays reaches]
  | @missing closed index name closes lacks named =>
    have leaves : closeObject.run closed.within = .ok () closed := rfl
    rw [run_bind_of_ok ((Exam.Leaves.closed closes).run replays reaches), run_bind_of_ok leaves,
      firstMissing?_eq_some_iff.mpr ⟨index, lacks, named⟩]
    rfl
  | @complete closed closes seen =>
    have leaves : closeObject.run closed.within = .ok () closed := rfl
    rw [run_bind_of_ok ((Exam.Leaves.closed closes).run replays reaches), run_bind_of_ok leaves,
      firstMissing?_eq_none_iff.mpr seen]
    rfl

theorem Exam.exists_concludes (replays : FieldsReplay names field) (exam : Exam ρ) {depth : Nat}
    (inside : exam.reader.depth = depth + 1) :
    ∃ last, Exam.Reaches limit names field exam last ∧
      ∃ result, last.Concludes limit names field result := by
  obtain ⟨last, reaches, _, leaves⟩ := exam.exists_leaves replays inside
  refine ⟨last, reaches, ?_⟩
  cases leaves with
  | fault fails => exact ⟨_, .fault fails⟩
  | closed closes =>
    cases missing : firstMissing? names (last.seen names) with
    | none => exact ⟨_, .complete closes (firstMissing?_eq_none_iff.mp missing)⟩
    | some name =>
      obtain ⟨index, lacks, named⟩ := firstMissing?_eq_some_iff.mp missing
      exact ⟨_, .missing closes lacks named⟩

/-- Reading an object ends as its examination does. -/
theorem readObject_run_iff (replays : FieldsReplay names field)
    (shallow : before.depth + 1 < limit) (isSpace : Space space)
    (opens : Passes before (space ++ [Ascii.openBrace]) inside) :
    (readObject limit names field record).run before = result ↔
      ∃ exam, Exam.Reaches limit names field ⟨[], record, inside.within⟩ exam ∧
        exam.Concludes limit names field result := by
  constructor
  · rintro rfl
    obtain ⟨exam, reaches, result, concludes⟩ :=
      Exam.exists_concludes replays ⟨[], record, inside.within⟩ rfl
    rw [concludes.run replays reaches shallow isSpace opens]
    exact ⟨exam, reaches, concludes⟩
  · rintro ⟨exam, reaches, concludes⟩
    exact concludes.run replays reaches shallow isSpace opens

/-- Whether a member of a name met before is the first at fault is settled once its colon is read:
the error does not depend on the bytes that follow. -/
theorem readObject_duplicate (replays : FieldsReplay names field)
    (shallow : before.depth + 1 < limit) (isSpace : Space space)
    (opens : Passes before (space ++ [Ascii.openBrace]) inside)
    (reaches : Exam.Reaches limit names field ⟨[], record, inside.within⟩ exam)
    {index : Nat} (named : exam.Names name colon) (known : names.idxOf? name = some index)
    (seen : index ∈ exam.seen names) {front : List UInt8}
    (unread : before.unread = front ++ colon.unread) (rest : List UInt8) :
    (readObject limit names field record).run { before with unread := front ++ rest } =
      .error ⟨SchemaError.duplicateKey, some ("duplicate " ++ name), colon.offset⟩
        { colon with unread := rest } := by
  obtain ⟨members, memberPasses, reaches⟩ := reaches.replay replays
  obtain ⟨heading, headingPasses, _, heads⟩ := named.replay
  have whole : front = space ++ [Ascii.openBrace] ++ (members ++ heading) := by
    have passed : inside.unread = members ++ heading ++ colon.unread :=
      (memberPasses.trans headingPasses).unread
    rw [opens.unread, passed, ← List.append_assoc] at unread
    exact (List.append_cancel_right unread).symm
  subst whole
  let again : Reader :=
    { before with unread := space ++ [Ascii.openBrace] ++ (members ++ heading) ++ rest }
  have opens' : Passes again (space ++ [Ascii.openBrace])
      { inside with unread := members ++ (heading ++ rest) } :=
    ⟨by simp [again], opens.offset, opens.depth⟩
  have shallow' : again.depth + 1 < limit := shallow
  refine (readObject_run_iff replays shallow' isSpace opens').mpr
    ⟨_, reaches _ (heads rest).1, .fault (.duplicate (heads rest).2 known seen)⟩

end

end TypedJson.Reader
