import TypedJson.Proofs.Reader.Limit
import TypedJson.Proofs.Schema.Refinement

/-! The depth limit of typed decoding. It only ever refuses, and it refuses by the nesting of the
document: which schema is read, and whether a container is read or skipped, makes no difference. -/
namespace TypedJson

open Grammar Reader

variable {narrow wide : Nat}

theorem Fields.readAt_within (limit depth : Nat) (fields : Fields) (index : Nat)
    (record : fields.Record) (bound : index < fields.names.length) :
    Sound (fields.readAt limit index record) depth fun _ => ValueWithin (room limit depth) :=
  (fields.readAt_sound limit depth index record bound).imp fun value text placed =>
    Fields.SpellsAt.within fields index value text placed.1

mutual
theorem Schema.readInto_agree (le : narrow ≤ wide) (depth : Nat) :
    ∀ (schema : Schema) (target : schema.Value),
      Limits narrow depth (schema.readInto narrow target) (schema.readInto wide target)
  | .boolean, _ | .integer _, _ | .real, _ | .string, _ | .binary _, _ | .enumeration _, _ =>
    fun _ _ => .inl rfl
  | .array element, _ =>
    readArray_agree le (element.readInto_agree le (depth + 1) element.default)
      (element.readInto_within narrow (depth + 1) element.default)
  | .object fields, _ =>
    readObject_agree le (fun index record _ => fields.readAt_agree le (depth + 1) index record)
      (fields.readAt_within narrow (depth + 1))

theorem Fields.readAt_agree (le : narrow ≤ wide) (depth : Nat) :
    ∀ (fields : Fields) (index : Nat) (record : fields.Record),
      Limits narrow depth (fields.readAt narrow index record) (fields.readAt wide index record)
  | .nil, _, _ => fun _ _ => .inl rfl
  | .cons _ schema _, 0, (value, _) => fun _ level =>
    (schema.readInto_agree le depth value level).bind fun _ _ _ => .inl rfl
  | .cons _ _ rest, index + 1, (_, others) => fun _ level =>
    (rest.readAt_agree le depth index others level).bind fun _ _ _ => .inl rfl
end

/-- Typed decoding and skipping obey the depth limit: of any two limits the narrower gives the same
outcome for a document or refuses it as too deep, and it does so exactly by the nesting of the
document, at the first bracket that reaches the limit. -/
theorem Schema.depth_limited (schema : Schema) (target : schema.Value) (allowTrailing : Bool)
    (document : List UInt8) (le : narrow ≤ wide) :
    LimitLaw (fun options => schema.decodeInto options target) narrow wide allowTrailing document ∧
      LimitLaw skipDocument narrow wide allowTrailing document := by
  constructor
  · simp only [LimitLaw, decodeInto_eq]
    exact @limitLaw _ narrow wide (fun limit => schema.readInto limit target)
      (schema.readInto_agree le 0 target)
      (fun limit => schema.readInto_within limit 0 target) allowTrailing document
  · exact limitLaw (skip_agree le 0) (fun _ => skip_sound) allowTrailing document

/-- The list `[[]]` is read and skipped under a limit of three. Under a limit of two it is refused
after its second bracket, either way. -/
theorem Schema.depth_limited_lists :
    (Schema.array (.array .boolean)).decodeInto ⟨2, false⟩ [] [0x5b, 0x5b, 0x5d, 0x5d] =
      .error ⟨SchemaError.tooDeep, none, 2⟩ ∧
    skipDocument ⟨2, false⟩ [0x5b, 0x5b, 0x5d, 0x5d] = .error ⟨SchemaError.tooDeep, none, 2⟩ := by
  have law := (Schema.array (.array .boolean)).depth_limited [] false [0x5b, 0x5b, 0x5d, 0x5d]
    (show 2 ≤ 3 by decide)
  have deep : ¬(Grammar.nesting [0x5b, 0x5b, 0x5d, 0x5d] = 0 ∨
      Grammar.nesting [0x5b, 0x5b, 0x5d, 0x5d] < 2) := by
    decide
  constructor
  · obtain ⟨text, rest, _, whole, _, strict, _, refused⟩ := law.1.2 [[]] rfl
    rw [strict rfl, List.append_nil] at whole
    subst whole
    exact refused deep
  · obtain ⟨text, rest, _, whole, _, strict, _, refused⟩ := law.2.2 () rfl
    rw [strict rfl, List.append_nil] at whole
    subst whole
    exact refused deep

end TypedJson
