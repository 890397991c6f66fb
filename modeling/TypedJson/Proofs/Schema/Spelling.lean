import TypedJson.Proofs.Reader.Record
import TypedJson.Schema.Read

/-! What typed decoding accepts. The texts of a value are defined over its schema alone, and reading
a value of the schema, in place of whatever value, is sound and complete for them. -/
namespace TypedJson

open Grammar Reader

mutual
/-- The texts of a value, with at most `levels` containers open at once. -/
def Schema.Spells (levels : Nat) : (schema : Schema) → schema.Value → List UInt8 → Prop
  | .boolean, value, text => text = booleanText value
  | .integer _, value, text => IntegerText value text
  | .real, value, text => RealText value text
  | .string, value, text => Grammar.StringToken text value
  | .binary _, value, text => BinaryText value text
  | .enumeration names, index, text => NameText names index text
  | .array element, values, text =>
    ∃ inside, levels = inside + 1 ∧ ArrayText (element.Spells inside) values text
  | .object fields, record, text => ∃ inside members body, levels = inside + 1 ∧
    text = Ascii.openBrace :: body ∧ Members true members body ∧
      Fills fields.names (ValueWithin inside) (fun index => fields.SpellsAt inside index record)
        members

/-- The texts of the field at an index. -/
def Fields.SpellsAt (levels : Nat) :
    (fields : Fields) → Nat → fields.Record → List UInt8 → Prop
  | .nil, _, _, _ => False
  | .cons _ schema _, 0, (value, _), text => schema.Spells levels value text
  | .cons _ _ rest, index + 1, (_, others), text => rest.SpellsAt levels index others text
end

namespace Fields

/-- The field at an index, with its schema. -/
def at? : (fields : Fields) → Nat → fields.Record → Option (Sigma Schema.Value)
  | .nil, _, _ => none
  | .cons _ schema _, 0, (value, _) => some ⟨schema, value⟩
  | .cons _ _ rest, index + 1, (_, others) => rest.at? index others

/-- The record with the field at an index taken from another. -/
def copyAt : (fields : Fields) → Nat → fields.Record → fields.Record → fields.Record
  | .nil, _, _, record => record
  | .cons _ _ _, 0, (value, _), (_, others) => (value, others)
  | .cons _ _ rest, index + 1, (_, source), (value, others) =>
    (value, rest.copyAt index source others)

theorem at?_copyAt : ∀ (fields : Fields) (index : Nat) (source record : fields.Record),
    fields.at? index (fields.copyAt index source record) = fields.at? index source
  | .nil, _, _, _ => rfl
  | .cons _ _ _, 0, _, _ => rfl
  | .cons _ _ rest, index + 1, (_, source), (_, record) => rest.at?_copyAt index source record

theorem at?_copyAt_of_ne : ∀ (fields : Fields) (index other : Nat)
    (source record : fields.Record), other ≠ index →
      fields.at? other record = fields.at? other (fields.copyAt index source record)
  | .nil, _, _, _, _, _ => rfl
  | .cons _ _ _, 0, 0, _, _, differs => absurd rfl differs
  | .cons _ _ _, 0, _ + 1, _, _, _ => rfl
  | .cons _ _ _, _ + 1, 0, _, _, _ => rfl
  | .cons _ _ rest, index + 1, other + 1, (_, source), (_, record), differs =>
    rest.at?_copyAt_of_ne index other source record fun same => differs (congrArg _ same)

/-- A record is what its fields are. -/
theorem eq_of_at? : ∀ (fields : Fields) (record record' : fields.Record),
    (∀ index < fields.names.length, fields.at? index record = fields.at? index record') →
      record = record'
  | .nil, _, _, _ => rfl
  | .cons _ _ rest, (value, others), (value', others'), same => by
    have first := same 0 (Nat.zero_lt_succ _)
    obtain rfl := eq_of_heq (Sigma.mk.inj (Option.some.inj first)).2
    rw [rest.eq_of_at? others others' fun index bound => same (index + 1) (Nat.succ_lt_succ bound)]

theorem SpellsAt.respects {levels : Nat} : ∀ (fields : Fields) (index : Nat)
    (record record' : fields.Record) (text : List UInt8),
    fields.at? index record = fields.at? index record' →
      fields.SpellsAt levels index record text → fields.SpellsAt levels index record' text
  | .cons _ _ _, 0, (value, _), (value', _), _, same, spelled => by
    obtain rfl := eq_of_heq (Sigma.mk.inj (Option.some.inj same)).2
    exact spelled
  | .cons _ _ rest, index + 1, (_, others), (_, others'), text, same, spelled =>
    SpellsAt.respects rest index others others' text same spelled

/-- The field at an index, spelled by a text, in place of the one in the record. -/
def Places (levels : Nat) (fields : Fields) : Nat → fields.Record → fields.Record →
    List UInt8 → Prop :=
  Replaces fields.at? fun index record text => fields.SpellsAt levels index record text

end Fields

mutual
/-- Whatever spells a value is a value of the grammar. -/
theorem Schema.Spells.within {levels : Nat} :
    ∀ (schema : Schema) (value : schema.Value) (text : List UInt8),
      schema.Spells levels value text → ValueWithin levels text
  | .boolean, value, _, spelled => by
    subst spelled
    cases value
    · exact scalar_within .false levels
    · exact scalar_within .true levels
  | .integer _, _, _, spelled => scalar_within (.number spelled.1) levels
  | .real, _, _, spelled => scalar_within (.number spelled.1) levels
  | .string, _, _, spelled => scalar_within (.string spelled) levels
  | .binary _, _, _, ⟨_, token, _⟩ => scalar_within (.string token) levels
  | .enumeration _, _, _, ⟨_, token, _⟩ => scalar_within (.string token) levels
  | .array element, _, _, spelled => by
    obtain ⟨inside, rfl, texts, body, rfl, valids, each⟩ := spelled
    exact .array valids (forall_of_forall₂ (Schema.Spells.within element) each)
  | .object fields, record, _, spelled => by
    obtain ⟨inside, members, body, rfl, rfl, valids, fills⟩ := spelled
    exact .object valids (fills.forall fun index => Fields.SpellsAt.within fields index record)

theorem Fields.SpellsAt.within {levels : Nat} :
    ∀ (fields : Fields) (index : Nat) (record : fields.Record) (text : List UInt8),
      fields.SpellsAt levels index record text → ValueWithin levels text
  | .cons _ schema _, 0, (value, _), text, spelled => Schema.Spells.within schema value text spelled
  | .cons _ _ rest, index + 1, (_, others), text, spelled =>
    Fields.SpellsAt.within rest index others text spelled
end

mutual
theorem Schema.readInto_sound (limit depth : Nat) : ∀ (schema : Schema) (target : schema.Value),
    Sound (schema.readInto limit target) depth (schema.Spells (room limit depth))
  | .boolean, _ => boolean_sound
  | .integer type, _ => integer_sound type
  | .real, _ => real_sound
  | .string, _ => string_sound
  | .binary width, _ => binary_sound width
  | .enumeration names, _ => enumeration_sound names
  | .array element, _ => by
    have sound : Sound (readArray limit _) depth _ := readArray_sound fun _ =>
      element.readInto_sound limit (depth + 1) element.default
    exact sound.imp fun _ _ ⟨shallow, array⟩ => ⟨_, room_succ shallow, array⟩
  | .object fields, target => by
    have sound : Sound (readObject limit _ _ target) depth _ := readObject_sound fun _ =>
      fields.readAt_sound limit (depth + 1)
    refine sound.imp fun record text ⟨shallow, members, body, seen, same, valids, gathers, all⟩ => ?_
    refine ⟨_, members, body, room_succ shallow, same, valids, gathers.skips, fun index bound => ?_⟩
    have found := Gathers.fields (Fields.SpellsAt.respects fields) gathers
    exact found.2 index (all index bound) List.not_mem_nil

theorem Fields.readAt_sound (limit depth : Nat) :
    ∀ (fields : Fields) (index : Nat) (record : fields.Record), index < fields.names.length →
      Sound (fields.readAt limit index record) depth
        (fields.Places (room limit depth) index record)
  | .cons _ schema _, 0, (target, others), _ => by
    intro before record' after same read
    obtain ⟨value, middle, first, read⟩ := run_bind_ok read
    obtain ⟨rfl, rfl⟩ := EStateM.Result.ok.inj read
    refine (schema.readInto_sound limit depth target same first).imp fun text spelled => ?_
    refine ⟨spelled, fun other differs => ?_⟩
    cases other with
    | zero => contradiction
    | succ other => rfl
  | .cons _ _ rest, index + 1, (value, targets), bound => by
    intro before record' after same read
    obtain ⟨others, middle, following, read⟩ := run_bind_ok read
    obtain ⟨rfl, rfl⟩ := EStateM.Result.ok.inj read
    have sound := rest.readAt_sound limit depth index targets (Nat.lt_of_succ_lt_succ bound)
    refine (sound same following).imp fun text ⟨spelled, kept⟩ => ⟨spelled, fun other differs => ?_⟩
    cases other with
    | zero => rfl
    | succ other => exact kept other fun same => differs (congrArg _ same)
end

theorem room_eq_succ {limit depth inside : Nat} (opens : room limit depth = inside + 1) :
    depth + 1 < limit ∧ inside = room limit (depth + 1) := by
  rw [room] at opens ⊢
  omega

/-- Members that fill a record make it out of any other. -/
theorem Fields.gathers {fields : Fields} {levels : Nat} {record : fields.Record}
    {members : List (String × List UInt8)} (target : fields.Record)
    (fills : Fills fields.names (ValueWithin levels)
      (fun index => fields.SpellsAt levels index record) members) :
    ∃ seen, Gathers fields.names (ValueWithin levels) (fields.Places levels) [] target members seen
      record ∧ ∀ index < fields.names.length, index ∈ seen := by
  refine gathers_of_fields (fun index source record => ?_) fields.eq_of_at?
    (Fields.SpellsAt.respects fields) fills.1 nofun fun index bound _ => fills.2 index bound
  exact ⟨fields.copyAt index source record, fields.at?_copyAt index source record,
    fun other => fields.at?_copyAt_of_ne index other source record⟩

mutual
theorem Schema.readInto_complete (limit depth : Nat) : ∀ (schema : Schema) (target : schema.Value),
    Complete (schema.readInto limit target) depth (schema.Spells (room limit depth))
  | .boolean, _ => boolean_complete
  | .integer type, _ => integer_complete type
  | .real, _ => real_complete
  | .string, _ => string_complete
  | .binary width, _ => binary_complete width
  | .enumeration names, _ => enumeration_complete names
  | .array element, _ => by
    have complete : Complete (readArray limit _) depth _ := readArray_complete
      (fun _ => element.readInto_complete limit (depth + 1) element.default)
      fun value text spelled => (Schema.Spells.within element value text spelled).starts
    apply complete.imp
    intro values text spelled
    obtain ⟨inside, opens, array⟩ := spelled
    obtain ⟨shallow, rfl⟩ := room_eq_succ opens
    exact ⟨shallow, array⟩
  | .object fields, target => by
    have complete : Complete (readObject limit _ _ target) depth _ := readObject_complete fun _ =>
      fields.readAt_complete limit (depth + 1)
    apply complete.imp
    intro record text spelled
    obtain ⟨inside, members, body, opens, same, valids, fills⟩ := spelled
    obtain ⟨shallow, rfl⟩ := room_eq_succ opens
    obtain ⟨seen, gathers, all⟩ := fields.gathers target fills
    exact ⟨shallow, members, body, seen, same, valids, gathers, all⟩

theorem Fields.readAt_complete (limit depth : Nat) :
    ∀ (fields : Fields) (index : Nat) (record : fields.Record), index < fields.names.length →
      Complete (fields.readAt limit index record) depth
        (fields.Places (room limit depth) index record)
  | .cons _ schema rest, 0, (target, others), _ => by
    rintro before ⟨value, others'⟩ after same ⟨space, text, isSpace, ⟨spelled, kept⟩, passes, ends⟩
    obtain rfl := rest.eq_of_at? others others' fun index _ => kept (index + 1) nofun
    have read := schema.readInto_complete limit depth target same
      ⟨space, text, isSpace, spelled, passes, ends⟩
    rw [Fields.readAt, run_bind_of_ok read]
    rfl
  | .cons _ _ rest, index + 1, (value, targets), bound => by
    rintro before ⟨value', others⟩ after same ⟨space, text, isSpace, ⟨spelled, kept⟩, passes, ends⟩
    obtain rfl := eq_of_heq (Sigma.mk.inj (Option.some.inj (kept 0 nofun))).2
    have complete := rest.readAt_complete limit depth index targets (Nat.lt_of_succ_lt_succ bound)
    have places : rest.Places (room limit depth) index targets others text :=
      ⟨spelled, fun other differs => kept (other + 1) fun same => differs (Nat.succ.inj same)⟩
    have read := complete same ⟨space, text, isSpace, places, passes, ends⟩
    rw [Fields.readAt, run_bind_of_ok read]
    rfl
end

end TypedJson
