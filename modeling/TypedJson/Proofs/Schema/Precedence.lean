import TypedJson.Proofs.Reader.Examination
import TypedJson.Proofs.Reader.Unambiguous
import TypedJson.Proofs.Schema.Spelling

/-! Which error an object ends with. Of duplicates and faults the first in the document is reported,
a lacking field only after all of them and in the order of declaration: the members that came, in
whatever order, lack the same field first. -/
namespace TypedJson

open Grammar Reader

namespace Reader

variable {ρ : Type} {names : List String} {inner : List UInt8 → Prop}
  {place : Nat → ρ → ρ → List UInt8 → Prop} {seen seen' last : List Nat} {record final : ρ}
  {members members' : List (String × List UInt8)} {limit : Nat} {field : Nat → ρ → Read ρ}
  {before after : Reader} {space body : List UInt8} {name : String}

/-- Two fields can be placed in either order. -/
def Commutes (place : Nat → ρ → ρ → List UInt8 → Prop) : Prop :=
  ∀ ⦃index other record middle final text text'⦄, index ≠ other → place index record middle text →
    place other middle final text' →
      ∃ middle', place other record middle' text' ∧ place index middle' final text

/-- Which places were seen matters, but not in which order. -/
theorem Gathers.perm_seen (gathers : Gathers names inner place seen record members last final)
    (same : seen.Perm seen') :
    ∃ last', Gathers names inner place seen' record members last' final ∧ last.Perm last' := by
  induction gathers generalizing seen' with
  | done => exact ⟨seen', .done, same⟩
  | ignored ignored _ ih =>
    obtain ⟨last', gathers, perm⟩ := ih same
    exact ⟨last', .ignored ignored gathers, perm⟩
  | placed known unseen placed _ ih =>
    obtain ⟨last', gathers, perm⟩ := ih (same.cons _)
    exact ⟨last', .placed known (mt same.mem_iff.mpr unseen) placed gathers, perm⟩

theorem Gathers.swap (commutes : Commutes place) {member member' : String × List UInt8}
    (gathers : Gathers names inner place seen record (member :: member' :: members) last final) :
    ∃ last', Gathers names inner place seen record (member' :: member :: members) last' final ∧
      last.Perm last' := by
  cases gathers with
  | ignored ignored gathers =>
    cases gathers with
    | ignored ignored' gathers => exact ⟨_, .ignored ignored' (.ignored ignored gathers), .refl _⟩
    | placed known unseen placed gathers =>
      exact ⟨_, .placed known unseen placed (.ignored ignored gathers), .refl _⟩
  | placed known unseen placed gathers =>
    cases gathers with
    | ignored ignored gathers =>
      exact ⟨_, .ignored ignored (.placed known unseen placed gathers), .refl _⟩
    | placed known' unseen' placed' gathers =>
      have differs := (List.ne_of_not_mem_cons unseen').symm
      obtain ⟨middle, placed', placed⟩ := commutes differs placed placed'
      obtain ⟨last', gathers, perm⟩ := gathers.perm_seen (.swap ..)
      refine ⟨last', .placed known' (List.not_mem_of_not_mem_cons unseen') placed' ?_, perm⟩
      exact .placed known (List.not_mem_cons_of_ne_of_not_mem differs unseen) placed gathers

theorem Gathers.perm (commutes : Commutes place) (perm : members.Perm members')
    (gathers : Gathers names inner place seen record members last final) :
    ∃ last', Gathers names inner place seen record members' last' final ∧ last.Perm last' := by
  induction perm generalizing seen record last with
  | nil => exact ⟨last, gathers, .refl _⟩
  | cons _ _ ih =>
    cases gathers with
    | ignored ignored gathers =>
      obtain ⟨last', gathers, perm⟩ := ih gathers
      exact ⟨last', .ignored ignored gathers, perm⟩
    | placed known unseen placed gathers =>
      obtain ⟨last', gathers, perm⟩ := ih gathers
      exact ⟨last', .placed known unseen placed gathers, perm⟩
  | swap => exact gathers.swap commutes
  | trans _ _ first second =>
    obtain ⟨middle, gathers, perm⟩ := first gathers
    obtain ⟨last', gathers, perm'⟩ := second gathers
    exact ⟨last', gathers, perm.trans perm'⟩

theorem Gathers.forall (gathers : Gathers names inner place seen record members last final)
    (weaker : ∀ index record next text, place index record next text → inner text) :
    ∀ member ∈ members, inner member.2 := by
  induction gathers with
  | done => nofun
  | ignored ignored _ ih => exact List.forall_mem_cons.mpr ⟨ignored.2, ih⟩
  | placed _ _ placed _ ih => exact List.forall_mem_cons.mpr ⟨weaker _ _ _ _ placed, ih⟩

theorem firstMissing?_perm (perm : seen.Perm seen') :
    firstMissing? names seen = firstMissing? names seen' := by
  simp only [firstMissing?, perm.contains_eq]

end Reader

namespace Fields

variable {limit depth levels : Nat} {fields : Fields} {target : fields.Record}
  {before inside closed : Reader} {members : List (String × List UInt8)} {space : List UInt8}
  {exam : Exam fields.Record}

theorem replays (limit : Nat) (fields : Fields) : FieldsReplay fields.names (fields.readAt limit) :=
  fun index record bound => replays_of
    (fun depth => fields.readAt_sound limit depth index record bound)
    fun depth => fields.readAt_complete limit depth index record bound

theorem places_commutes (levels : Nat) (fields : Fields) : Commutes (fields.Places levels) := by
  rintro index other record middle final text text' differs ⟨spelled, kept⟩ ⟨spelled', kept'⟩
  have same := fields.at?_copyAt other final record
  have rest (place : Nat) := fields.at?_copyAt_of_ne other place final record
  refine ⟨fields.copyAt other final record, ⟨?_, rest⟩, ?_, fun place away => ?_⟩
  · exact SpellsAt.respects fields _ _ _ _ same.symm spelled'
  · exact SpellsAt.respects fields _ _ _ _ (kept' index differs) spelled
  · by_cases here : place = other
    · exact here ▸ same
    · exact ((rest place here).symm.trans (kept place away)).trans (kept' place here)

/-- Examining an object whose brace was read, the record in front of it, leads to some point. -/
abbrev Examines (limit : Nat) (fields : Fields) (target : fields.Record) (inside : Reader) :
    Exam fields.Record → Prop :=
  Exam.Reaches limit fields.names (fields.readAt limit) ⟨[], target, inside.within⟩

/-- An examination to the end of an object has placed the members that stand there. -/
theorem gathers_of_closes (examined : fields.Examines limit target inside exam)
    (closes : exam.Closes closed) (isSpace : Space space)
    (opens : Passes before (space ++ [Ascii.openBrace]) inside) :
    closed.depth = before.depth ∧ ∃ members, ObjectAt before members ∧
      Gathers fields.names (ValueWithin (room limit (before.depth + 1)))
        (fields.Places (room limit (before.depth + 1))) [] target members (exam.seen fields.names)
        exam.record := by
  have walk := (Exam.Leaves.closed closes).run (fields.replays limit) examined
  have level : inside.within.depth = before.depth + 1 := by rw [Reader.within, opens.depth]
  obtain ⟨members, body, valids, gathers, ⟨unread, offset, depth⟩⟩ :=
    membersFrom_sound (fields.readAt_sound limit (before.depth + 1)) level walk
  have passes : Passes inside body closed := ⟨unread, offset, Nat.succ.inj depth⟩
  refine ⟨passes.depth.trans opens.depth, members, ⟨space, body, closed.unread, isSpace, valids,
    fun member listed => ⟨_, gathers.forall (fun index _ next text placed =>
      SpellsAt.within fields index next text placed.1) member listed⟩, ?_⟩, gathers⟩
  rw [opens.unread, passes.unread]
  simp

/-- Members in another order lack the same field first. -/
theorem missing_perm {members members' : List (String × List UInt8)} {seen : List Nat}
    {record : fields.Record} {name : String} (shallow : before.depth + 1 < limit)
    (gathers : Gathers fields.names (ValueWithin (room limit (before.depth + 1)))
      (fields.Places (room limit (before.depth + 1))) [] target members seen record)
    (missing : firstMissing? fields.names seen = some name) (perm : members.Perm members')
    (stands : ObjectAt before members') :
    ∃ after, ((Schema.object fields).readInto limit target).run before =
        .error ⟨SchemaError.missingKey, some name, after.offset⟩ after ∧
      after.depth = before.depth := by
  obtain ⟨seen', gathers, same⟩ := gathers.perm (fields.places_commutes _) perm
  obtain ⟨space, body, rest, isSpace, valids, _, unread⟩ := stands
  have passes : Passes before (space ++ Ascii.openBrace :: body) _ := Passes.advance unread
  have read := readObject_gathers (fields.readAt_complete limit _) rfl shallow isSpace valids gathers
    passes
  rw [← firstMissing?_perm same, missing] at read
  exact ⟨_, read, passes.depth⟩

end Fields

/-- The error of an object is that of the first of its members at which anything is wrong, and only
an object that is read to its end lacks a field. A name met twice is an error as soon as its colon is
read, whatever follows; a faulty heading or value is reported as it is; and of the declared names
that no member has, the first declared is named, past the closing brace and out of the object. The
same members in any other order lack the same one. -/
theorem Schema.object_precedence (fields : Fields) (limit : Nat) (target : fields.Record)
    {before inside : Reader} {space : List UInt8} (shallow : before.depth + 1 < limit)
    (isSpace : Space space) (opens : Passes before (space ++ [Ascii.openBrace]) inside) :
    (∀ result, ((Schema.object fields).readInto limit target).run before = result ↔
      ∃ exam, fields.Examines limit target inside exam ∧
        exam.Concludes limit fields.names (fields.readAt limit) result) ∧
    (∀ exam, fields.Examines limit target inside exam → ∀ name index colon,
      exam.Names name colon → fields.names.idxOf? name = some index →
        index ∈ exam.seen fields.names →
          ∀ front, before.unread = front ++ colon.unread → ∀ rest,
            ((Schema.object fields).readInto limit target).run
                { before with unread := front ++ rest } =
              .error ⟨SchemaError.duplicateKey, some ("duplicate " ++ name), colon.offset⟩
                { colon with unread := rest }) ∧
    ∀ exam, fields.Examines limit target inside exam → ∀ closed index name, exam.Closes closed →
      exam.Lacks fields.names index → fields.names[index]? = some name →
        closed.depth = before.depth ∧ ∃ members, ObjectAt before members ∧
          ∀ other members', ObjectAt other members' → members.Perm members' →
            other.depth = before.depth →
              ∃ after, ((Schema.object fields).readInto limit target).run other =
                  .error ⟨SchemaError.missingKey, some name, after.offset⟩ after ∧
                after.depth = other.depth := by
  refine ⟨fun result => readObject_run_iff (fields.replays limit) shallow isSpace opens,
    fun exam examined name index colon named known seen front unread rest =>
      readObject_duplicate (fields.replays limit) shallow isSpace opens examined named known seen
        unread rest,
    fun exam examined closed index name closes lacks named => ?_⟩
  obtain ⟨level, members, stands, gathers⟩ := Fields.gathers_of_closes examined closes isSpace opens
  refine ⟨level, members, stands, fun other members' stands' perm same => ?_⟩
  have missing := firstMissing?_eq_some_iff.mpr ⟨index, lacks, named⟩
  rw [← same] at gathers shallow
  exact Fields.missing_perm shallow gathers missing perm stands'

/-- The second member of a name is refused at its colon, be the object complete or cut off there. -/
theorem Schema.object_precedence_duplicate :
    ((Schema.record [("a", .boolean)]).readInto 3 (false, ())).run
        (ofBytes (Utf8.encode "\x7b\"a\":true,\"a\":7\x7d".toList)) =
      .error ⟨SchemaError.duplicateKey, some "duplicate a", 14⟩ ⟨Utf8.encode "7\x7d".toList, 14, 1⟩ ∧
    ((Schema.record [("a", .boolean)]).readInto 3 (false, ())).run
        (ofBytes (Utf8.encode "\x7b\"a\":true,\"a\":".toList)) =
      .error ⟨SchemaError.duplicateKey, some "duplicate a", 14⟩ ⟨[], 14, 1⟩ := by
  let before := ofBytes (Utf8.encode "\x7b\"a\":true,\"a\":7\x7d".toList)
  have opens : Passes before ([] ++ [Ascii.openBrace]) (before.advance 1) := ⟨rfl, rfl, rfl⟩
  have plain : Grammar.Spells (String.utf8EncodeChar 'a') 'a' :=
    .plain ⟨by decide, by decide, by decide⟩
  have token : Grammar.StringToken [0x22, 0x61, 0x22] "a" := .mk (.cons plain .nil)
  let start : Exam (Bool × Unit) := ⟨[], (false, ()), (before.advance 1).within⟩
  have first : start.Names "a" ((before.advance 5).within) :=
    ⟨_, .mk (.first .nil) token .nil, rfl, rfl, rfl⟩
  have step : start.Step 3 ["a"] ((Fields.ofList [("a", .boolean)]).readAt 3)
      ⟨["a"], (true, ()), (before.advance 9).within⟩ := .placed first rfl nofun rfl
  have second : Exam.Names ⟨["a"], (true, ()), (before.advance 9).within⟩ "a"
      ((before.advance 14).within) := ⟨_, .mk (.next .nil .nil) token .nil, rfl, rfl, rfl⟩
  obtain ⟨_, duplicate, _⟩ :=
    Schema.object_precedence (.ofList [("a", .boolean)]) 3 (false, ()) (by decide) .nil opens
  have same := duplicate _ (.single step) "a" 0 _ second rfl (by decide)
    (Utf8.encode "\x7b\"a\":true,\"a\":".toList) rfl
  exact ⟨same (Utf8.encode "7\x7d".toList), same []⟩

end TypedJson
