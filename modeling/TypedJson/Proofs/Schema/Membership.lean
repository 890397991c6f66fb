import TypedJson.Proofs.Reader.Unambiguous
import TypedJson.Proofs.Schema.Spelling
import TypedJson.Proofs.Writer.Rendering

/-! An object is decided by the set of its members. Each field is what the one member for it is read
as when it stands alone, and of the other members only that they can be skipped matters; so neither
the order of the members nor what else stands among them changes the record. -/
namespace TypedJson

open Grammar Reader

namespace Reader

/-- The same members up to their order and to unknown ones with acceptable values. -/
inductive Rearranged (names : List String) (acceptable : List UInt8 → Prop) :
    List (String × List UInt8) → List (String × List UInt8) → Prop where
  | permuted : members.Perm members' → Rearranged names acceptable members members'
  | inserted : names.idxOf? name = none → acceptable value →
      Rearranged names acceptable (before ++ after) (before ++ (name, value) :: after)
  | symm : Rearranged names acceptable members members' →
      Rearranged names acceptable members' members
  | trans : Rearranged names acceptable members between →
      Rearranged names acceptable between members' → Rearranged names acceptable members members'

variable {names : List String} {inner inner' : List UInt8 → Prop}
  {spells spells' : Nat → List UInt8 → Prop} {members members' : List (String × List UInt8)}

theorem fills_of_perm (perm : members.Perm members') (fills : Fills names inner spells members) :
    Fills names inner spells members' := by
  constructor
  · intro member listed unknown
    exact fills.1 member (perm.mem_iff.mpr listed) unknown
  · intro index bound
    obtain ⟨member, only, spelled⟩ := fills.2 index bound
    have same := perm.filter (resolves names index)
    rw [only] at same
    exact ⟨member, List.perm_singleton.mp same.symm, spelled⟩

theorem fills_rearranged (rearranged : Rearranged names inner members members') :
    Fills names inner spells members ↔ Fills names inner spells members' := by
  induction rearranged with
  | permuted perm => exact ⟨fills_of_perm perm, fills_of_perm perm.symm⟩
  | @inserted name value before after unknown acceptable =>
    have absent (index : Nat) : resolves names index (name, value) = false := by
      simp [resolves, unknown]
    have rest (index : Nat) : (before ++ (name, value) :: after).filter (resolves names index) =
        (before ++ after).filter (resolves names index) := by
      simp [List.filter_append, absent]
    have skipped : (∀ member ∈ before ++ (name, value) :: after,
        names.idxOf? member.1 = none → inner member.2) ↔
          ∀ member ∈ before ++ after, names.idxOf? member.1 = none → inner member.2 := by
      constructor
      · intro all member listed
        exact all member (by simp only [List.mem_append, List.mem_cons] at listed ⊢; tauto)
      · intro all member listed unknown
        obtain listed | rfl | listed :
            member ∈ before ∨ member = (name, value) ∨ member ∈ after := by simpa using listed
        · exact all member (List.mem_append_left _ listed) unknown
        · exact acceptable
        · exact all member (List.mem_append_right _ listed) unknown
    simp only [Fills, rest, skipped]
  | symm _ ih => exact ih.symm
  | trans _ _ first second => exact first.trans second

theorem Fills.imp (fills : Fills names inner spells members)
    (skips : ∀ member ∈ members, inner member.2 → inner' member.2)
    (weaker : ∀ index, ∀ member ∈ members, spells index member.2 → spells' index member.2) :
    Fills names inner' spells' members := by
  constructor
  · intro member listed unknown
    exact skips member listed (fills.1 member listed unknown)
  · intro index bound
    obtain ⟨member, only, spelled⟩ := fills.2 index bound
    have listed : member ∈ members.filter (resolves names index) := only ▸ List.mem_singleton_self _
    exact ⟨member, only, weaker index member (List.mem_of_mem_filter listed) spelled⟩

theorem fills_congr (skips : ∀ member ∈ members, inner member.2 ↔ inner' member.2)
    (same : ∀ index, ∀ member ∈ members, spells index member.2 ↔ spells' index member.2) :
    Fills names inner spells members ↔ Fills names inner' spells' members := by
  constructor
  · intro fills
    exact fills.imp (fun member listed => (skips member listed).mp)
      fun index member listed => (same index member listed).mp
  · intro fills
    exact fills.imp (fun member listed => (skips member listed).mpr)
      fun index member listed => (same index member listed).mpr

/-- Of a name that is declared twice only the first is ever met. -/
theorem Fills.nodup (fills : Fills names inner spells members) : names.Nodup := by
  apply List.pairwise_iff_getElem.mpr
  intro first second _ bound before same
  obtain ⟨member, only, _⟩ := fills.2 second bound
  have resolved : resolves names second member = true :=
    List.of_mem_filter (only ▸ List.mem_singleton_self member)
  obtain ⟨_, named, earlier⟩ := List.idxOf?_eq_some_iff.mp (beq_iff_eq.mp resolved)
  exact earlier first before (same.trans named)

theorem accepts_skip_iff {limit depth : Nat} {text : List UInt8} (isValue : IsValue text) :
    Accepts (skip limit) depth () text ↔ ValueWithin (room limit depth) text :=
  accepts_iff skip_sound skip_complete (fun _ _ valid => ⟨_, valid⟩) isValue

/-- The text of an object stands wherever it comes next. -/
theorem objectAt_render (members : List (String × Tree)) (rest : List UInt8) (offset depth : Nat) :
    ObjectAt ⟨(Tree.object members).render ++ rest, offset, depth⟩
      (members.map fun member => (member.1, member.2.render)) := by
  have valids := Tree.members_separated (members.map fun member => (member.1, member.2.render))
  refine ⟨[], _, rest, .nil, valids, ?_, ?_⟩
  · intro member listed
    exact ⟨_, Tree.renderMembers_within members _ (Nat.le_refl _) member listed⟩
  · simp [Tree.render, Tree.renderMembers_eq, Function.comp_def]

end Reader

theorem Schema.accepts_read_iff {limit depth : Nat} {schema : Schema} {value : schema.Value}
    {text : List UInt8} (isValue : IsValue text) :
    Accepts (schema.read limit) depth value text ↔ schema.Spells (room limit depth) value text :=
  accepts_iff (schema.readInto_sound limit depth schema.default)
    (schema.readInto_complete limit depth schema.default)
    (fun value text spelled => ⟨_, Schema.Spells.within schema value text spelled⟩) isValue

namespace Fields

/-- The schema of the field at an index. -/
def schemaAt? : Fields → Nat → Option Schema
  | .nil, _ => none
  | .cons _ schema _, 0 => some schema
  | .cons _ _ rest, index + 1 => rest.schemaAt? index

theorem schemaAt?_of_at? : ∀ (fields : Fields) (index : Nat) (record : fields.Record)
    (schema : Schema) (value : schema.Value), fields.at? index record = some ⟨schema, value⟩ →
      fields.schemaAt? index = some schema
  | .cons _ _ _, 0, (_, _), _, _, rfl => rfl
  | .cons _ _ rest, index + 1, (_, others), schema, value, found =>
    rest.schemaAt?_of_at? index others schema value found

theorem lt_of_at? : ∀ (fields : Fields) (index : Nat) (record : fields.Record)
    (field : Sigma Schema.Value), fields.at? index record = some field → index < fields.names.length
  | .cons _ _ _, 0, _, _, _ => Nat.zero_lt_succ _
  | .cons _ _ rest, index + 1, (_, others), field, found =>
    Nat.succ_lt_succ (rest.lt_of_at? index others field found)

theorem spellsAt_iff {levels : Nat} : ∀ (fields : Fields) (index : Nat) (record : fields.Record)
    (text : List UInt8), fields.SpellsAt levels index record text ↔
      ∃ (schema : Schema) (value : schema.Value),
        fields.at? index record = some ⟨schema, value⟩ ∧ schema.Spells levels value text
  | .nil, _, _, _ => ⟨False.elim, fun ⟨_, _, found, _⟩ => nomatch found⟩
  | .cons _ schema _, 0, (value, _), _ =>
    ⟨fun spelled => ⟨schema, value, rfl, spelled⟩, fun ⟨_, _, found, spelled⟩ => by
      cases found
      exact spelled⟩
  | .cons _ _ rest, index + 1, (_, others), text => rest.spellsAt_iff index others text

/-- Fields that hold at every index make a record. -/
theorem exists_record : ∀ (fields : Fields) (holds : Nat → (schema : Schema) → schema.Value → Prop),
    (∀ index < fields.names.length, ∃ schema, fields.schemaAt? index = some schema ∧
      ∃ value, holds index schema value) →
    ∃ record, ∀ index < fields.names.length, ∃ (schema : Schema) (value : schema.Value),
      fields.at? index record = some ⟨schema, value⟩ ∧ holds index schema value
  | .nil, _, _ => ⟨(), nofun⟩
  | .cons _ schema rest, holds, each => by
    obtain ⟨first, same, value, held⟩ := each 0 (Nat.zero_lt_succ _)
    obtain rfl := Option.some.inj same
    obtain ⟨others, all⟩ := rest.exists_record (fun index => holds (index + 1)) fun index bound =>
      each (index + 1) (Nat.succ_lt_succ bound)
    refine ⟨(value, others), fun index bound => ?_⟩
    cases index with
    | zero => exact ⟨schema, value, rfl, held⟩
    | succ index => exact all index (Nat.lt_of_succ_lt_succ bound)

/-- The field at an index is what a text that stands alone is read as. -/
def Reads (limit depth : Nat) (fields : Fields) (record : fields.Record) (index : Nat)
    (text : List UInt8) : Prop :=
  ∃ (schema : Schema) (value : schema.Value), fields.at? index record = some ⟨schema, value⟩ ∧
    Accepts (schema.read limit) depth value text

theorem reads_iff {limit depth : Nat} {fields : Fields} {record : fields.Record} {index : Nat}
    {text : List UInt8} (isValue : IsValue text) : fields.Reads limit depth record index text ↔
      fields.SpellsAt (room limit depth) index record text := by
  simp only [Reads, spellsAt_iff, Schema.accepts_read_iff isValue]

/-- An object is read as a record exactly if its members fill it, each read alone. -/
theorem read_iff {limit : Nat} {fields : Fields} {target record : fields.Record} {before : Reader}
    {members : List (String × List UInt8)} (stands : ObjectAt before members) :
    (∃ after, ((Schema.object fields).readInto limit target).run before = .ok record after) ↔
      before.depth + 1 < limit ∧ Fills fields.names (Accepts (skip limit) (before.depth + 1) ())
        (fields.Reads limit (before.depth + 1) record) members := by
  have values : ∀ member ∈ members, IsValue member.2 := by
    obtain ⟨_, _, _, _, _, values, _⟩ := stands
    exact values
  have alone : Fills fields.names (Accepts (skip limit) (before.depth + 1) ())
      (fields.Reads limit (before.depth + 1) record) members ↔
        Fills fields.names (ValueWithin (room limit (before.depth + 1)))
          (fun index => fields.SpellsAt (room limit (before.depth + 1)) index record) members :=
    fills_congr (fun member listed => accepts_skip_iff (values member listed))
      fun index member listed => reads_iff (values member listed)
  rw [alone]
  constructor
  · rintro ⟨after, read⟩
    obtain ⟨space, _, isSpace, ⟨inside, members', body, opens, rfl, valids, fills⟩, passes, _⟩ :=
      (Schema.object fields).readInto_sound limit before.depth target rfl read
    obtain ⟨shallow, rfl⟩ := room_eq_succ opens
    have within := fills.forall fun index => Fields.SpellsAt.within fields index record
    obtain rfl := object_unique stands ⟨space, body, after.unread, isSpace, valids,
      fun member listed => ⟨_, within member listed⟩, passes.unread⟩
    exact ⟨shallow, fills⟩
  · rintro ⟨shallow, fills⟩
    obtain ⟨space, body, rest, isSpace, valids, _, unread⟩ := stands
    refine ⟨_, (Schema.object fields).readInto_complete limit before.depth target rfl
      ⟨space, _, isSpace, ?_, Passes.advance unread, ends_of_head Ascii.openBrace rfl rfl⟩⟩
    exact ⟨_, members, body, room_succ shallow, rfl, valids, fills⟩

end Fields

/-- Reading an object is decided by the set of its members. It succeeds exactly if the limit lets it
open, each declared name is met by one member whose value the schema of its field accepts a level
deeper, and the values of all other members can be skipped there; each field is then what its own
member is read as. So members in another order, or unknown ones more or less, change neither the
success nor the record; and an object that declares a name twice is never read. -/
theorem Schema.object_decided (fields : Fields) (limit : Nat) :
    (∀ (target : fields.Record) (before : Reader) (members : List (String × List UInt8)),
      ObjectAt before members →
        ((∃ record after, ((Schema.object fields).readInto limit target).run before =
            .ok record after) ↔
          before.depth + 1 < limit ∧ Fills fields.names (Accepts (skip limit) (before.depth + 1) ())
            (fun index text => ∃ schema, fields.schemaAt? index = some schema ∧
              ∃ value, Accepts (schema.read limit) (before.depth + 1) value text) members) ∧
        (∀ record after, ((Schema.object fields).readInto limit target).run before =
            .ok record after →
          ∀ (index : Nat) (schema : Schema) (value : schema.Value),
            fields.at? index record = some ⟨schema, value⟩ →
              ∃ member, members.filter (resolves fields.names index) = [member] ∧
                Accepts (schema.read limit) (before.depth + 1) value member.2) ∧
        ∀ (target' : fields.Record) (other : Reader) (members' : List (String × List UInt8)),
          ObjectAt other members' → other.depth = before.depth →
            Rearranged fields.names (Accepts (skip limit) (before.depth + 1) ()) members members' →
              ∀ record,
                (∃ after, ((Schema.object fields).readInto limit target).run before =
                  .ok record after) ↔
                ∃ after, ((Schema.object fields).readInto limit target').run other =
                  .ok record after) ∧
    (¬fields.names.Nodup → ∀ (target record : fields.Record) (before after : Reader),
      ((Schema.object fields).readInto limit target).run before ≠ .ok record after) := by
  constructor
  · intro target before members stands
    refine ⟨?_, ?_, ?_⟩
    · constructor
      · rintro ⟨record, read⟩
        obtain ⟨shallow, fills⟩ := (Fields.read_iff stands).mp read
        refine ⟨shallow, fills.imp (fun _ _ skipped => skipped) ?_⟩
        rintro index member _ ⟨schema, value, found, accepted⟩
        exact ⟨schema, fields.schemaAt?_of_at? index record schema value found, value, accepted⟩
      · rintro ⟨shallow, skips, each⟩
        obtain ⟨record, all⟩ := fields.exists_record
          (fun index schema value => ∃ member, members.filter (resolves fields.names index) =
            [member] ∧ Accepts (schema.read limit) (before.depth + 1) value member.2) (by
              intro index bound
              obtain ⟨member, only, schema, found, value, accepted⟩ := each index bound
              exact ⟨schema, found, value, member, only, accepted⟩)
        refine ⟨record, (Fields.read_iff stands).mpr ⟨shallow, skips, fun index bound => ?_⟩⟩
        obtain ⟨schema, value, found, member, only, accepted⟩ := all index bound
        exact ⟨member, only, schema, value, found, accepted⟩
    · intro record after read index schema value found
      obtain ⟨_, fills⟩ := (Fields.read_iff stands).mp ⟨after, read⟩
      obtain ⟨member, only, schema', value', also, accepted⟩ :=
        fills.2 index (fields.lt_of_at? index record _ found)
      obtain ⟨rfl, same⟩ := Sigma.mk.inj (Option.some.inj (also.symm.trans found))
      obtain rfl := eq_of_heq same
      exact ⟨member, only, accepted⟩
    · intro target' other members' stands' level rearranged record
      rw [Fields.read_iff stands, Fields.read_iff stands', level, fills_rearranged rearranged]
  · intro repeated target record before after read
    obtain ⟨_, _, _, ⟨_, _, _, _, _, _, fills⟩, _, _⟩ :=
      (Schema.object fields).readInto_sound limit before.depth target rfl read
    exact repeated fills.nodup

/-- An unknown member with a list is inserted before the only field, and the same record is read; a
name declared twice is never read. -/
theorem Schema.object_decided_unknown :
    (∃ after, ((Schema.record [("on", .boolean)]).readInto 3 (false, ())).run
      (ofBytes (Utf8.encode "\x7b\"x\":[],\"on\":true\x7d".toList)) = .ok (true, ()) after) ∧
    ∀ before after, ((Schema.record [("a", .boolean), ("a", .boolean)]).readInto 3
      (false, false, ())).run before ≠ .ok (true, true, ()) after := by
  constructor
  · obtain ⟨objects, _⟩ := Schema.object_decided (.ofList [("on", .boolean)]) 3
    have plain := objectAt_render [("on", .leaf (.boolean true))] [] 0 0
    have stands := objectAt_render [("x", .array []), ("on", .leaf (.boolean true))] [] 0 0
    obtain ⟨decided, fields, rearranged⟩ := objects (false, ()) _ _ plain
    have on : Accepts (Schema.boolean.read 3) 1 true (booleanText true) := ⟨_, rfl⟩
    have fills := decided.mpr ⟨by decide, ?_, ?_⟩
    · obtain ⟨⟨value, ⟨⟩⟩, after, read⟩ := fills
      obtain ⟨member, only, after', accepted⟩ := fields _ after read 0 .boolean value rfl
      obtain rfl : ("on", booleanText true) = member := (List.cons.inj only).1
      obtain ⟨rfl, _⟩ : true = value ∧ _ := EStateM.Result.ok.inj accepted
      have acceptable : Accepts (skip 3) 1 () [0x5b, 0x5d] := ⟨_, rfl⟩
      have inserted := @Rearranged.inserted ["on"] _ "x" _ []
        [("on", booleanText true)] rfl acceptable
      exact (rearranged (false, ()) _ _ stands rfl inserted (true, ())).mp ⟨_, read⟩
    · exact List.forall_mem_singleton.mpr nofun
    · intro index bound
      obtain rfl : index = 0 := Nat.lt_one_iff.mp bound
      exact ⟨("on", booleanText true), rfl, .boolean, rfl, true, on⟩
  · intro before after
    exact (Schema.object_decided (.ofList [("a", .boolean), ("a", .boolean)]) 3).2 (by decide)
      (false, false, ()) (true, true, ()) before after

end TypedJson
