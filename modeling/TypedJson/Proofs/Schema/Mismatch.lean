import TypedJson.Proofs.Reader.Mismatch
import TypedJson.Proofs.Schema.Limit

/-! The errors of typed decoding. Where skipping finds a complete document, the only errors left are
those of the schema and numbers too big for a binary64, so any other error of the syntax shows that
the document is not one of the grammar. -/
namespace TypedJson

open Grammar Reader

mutual
/-- The texts that lead from the start of a value of the schema to a number that is read as a
binary64. -/
def Schema.ToReal : Schema → List UInt8 → Prop
  | .real, text => Space text
  | .array element, text => Into Ascii.openBracket (ToElement element.ToReal true) text
  | .object fields, text =>
    Into Ascii.openBrace (ToMember (ToField fields.names fields.ToRealAt) true) text
  | _, _ => False

/-- The same for the field at an index. -/
def Fields.ToRealAt : Fields → Nat → List UInt8 → Prop
  | .nil, _, _ => False
  | .cons _ schema _, 0, text => schema.ToReal text
  | .cons _ _ rest, index + 1, text => rest.ToRealAt index text
end

mutual
theorem Schema.readInto_settles (limit depth : Nat) : ∀ (schema : Schema) (target : schema.Value),
    SettlesAt limit depth schema.ToReal (schema.readInto limit target)
  | .boolean, _ => boolean_settles
  | .integer type, _ => integer_settles type
  | .real, _ => real_settles fun _ isSpace => isSpace
  | .string, _ => string_settles
  | .binary width, _ => binary_settles width
  | .enumeration names, _ => enumeration_settles names
  | .array element, _ =>
    readArray_settles (element.readInto_settles limit (depth + 1) element.default)
  | .object fields, _ =>
    readObject_settles (fields.readAt_settles limit (depth + 1))

theorem Fields.readAt_settles (limit depth : Nat) :
    ∀ (fields : Fields) (index : Nat) (record : fields.Record), index < fields.names.length →
      SettlesAt limit depth (fields.ToRealAt index) (fields.readAt limit index record)
  | .cons _ schema _, 0, (value, _), _ => fun _ _ level crosses =>
    (schema.readInto_settles limit depth value level crosses).bind fun _ _ => rfl
  | .cons _ _ rest, index + 1, (_, others), bound => fun _ _ level crosses =>
    (rest.readAt_settles limit depth index others (Nat.lt_of_succ_lt_succ bound) level crosses).bind
      fun _ _ => rfl
end

theorem Schema.decodeInto_settles {schema : Schema} {options : Options} {target : schema.Value}
    {document : List UInt8} (skipped : skipDocument options document = .ok ()) :
    (∃ value, schema.decodeInto options target document = .ok value) ∨
      ∃ error, schema.decodeInto options target document = .error error ∧
        Mismatch schema.ToReal (ofBytes document) error := by
  obtain ⟨after, run⟩ := skipDocument_iff.mp skipped
  obtain ⟨_, middle, skips, finished⟩ := run_bind_ok run
  have settles := schema.readInto_settles options.depthLimit 0 target rfl (skip_sound rfl skips)
  simp only [decodeInto_eq, readDocument, EStateM.run_bind]
  cases read : (schema.readInto options.depthLimit target).run (ofBytes document) with
  | ok value last =>
    -- reading comes out where skipping did, so what is left to finish is the same
    rw [read] at settles
    obtain rfl : last = middle := settles
    exact .inl ⟨value, by simp [finished]⟩
  | error error last =>
    rw [read] at settles
    exact .inr ⟨error, rfl, settles⟩

/-- Typed decoding of a document that can be skipped succeeds, or fails for the schema and not for
the depth, or for a number at a place of a binary64 that holds no such number. So any other error of
the syntax shows that the document is not one of the grammar within the limit. -/
theorem Schema.fails_for_mismatch (schema : Schema) (options : Options) (target : schema.Value)
    (document : List UInt8) :
    (skipDocument options document = .ok () →
      (∃ value, schema.decodeInto options target document = .ok value) ∨
      ∃ error, schema.decodeInto options target document = .error error ∧
        Mismatch schema.ToReal (ofBytes document) error) ∧
    ∀ (error : Error) (cause : SyntaxError),
      schema.decodeInto options target document = .error error → error.cause = cause →
        cause ≠ .numberTooBig →
          ¬∃ levels, Document levels document ∧ (levels = 0 ∨ levels < options.depthLimit) := by
  constructor
  · intro skipped
    exact decodeInto_settles skipped
  · rintro error cause failed same other ⟨levels, isDocument, bound⟩
    have skipped := skipDocument_iff.mpr (skips_document options isDocument bound)
    rcases decodeInto_settles skipped with ⟨value, decoded⟩ | ⟨error, failed', mismatch⟩
    · rw [failed] at decoded
      contradiction
    · obtain rfl := Except.error.inj (failed.symm.trans failed')
      cases mismatch with
      | schema => contradiction
      | overflow => exact other (Cause.malformed.inj same).symm

/-- In `[9e999]` the number is too big, and `[tru]` is not a document. -/
theorem Schema.fails_for_mismatch_numbers :
    (∃ error, (Schema.array .real).decodeInto ⟨2, false⟩ []
        [0x5b, 0x39, 0x65, 0x39, 0x39, 0x39, 0x5d] = .error error ∧
      Mismatch (Schema.array .real).ToReal (ofBytes [0x5b, 0x39, 0x65, 0x39, 0x39, 0x39, 0x5d])
        error) ∧
    ¬∃ levels, Document levels [0x5b, 0x74, 0x72, 0x75, 0x5d] ∧ (levels = 0 ∨ levels < 2) := by
  constructor
  · obtain ⟨settled, _⟩ := (Schema.array .real).fails_for_mismatch ⟨2, false⟩ []
      [0x5b, 0x39, 0x65, 0x39, 0x39, 0x39, 0x5d]
    rcases settled rfl with ⟨value, decoded⟩ | failed
    · have refused : (Schema.array .real).decodeInto ⟨2, false⟩ []
          [0x5b, 0x39, 0x65, 0x39, 0x39, 0x39, 0x5d] =
            .error ⟨SyntaxError.numberTooBig, none, 1⟩ := by decide +kernel
      rw [refused] at decoded
      contradiction
    · exact failed
  · exact ((Schema.array .boolean).fails_for_mismatch ⟨2, false⟩ []
      [0x5b, 0x74, 0x72, 0x75, 0x5d]).2 _ (.invalidLiteral "true") rfl rfl (by decide)

end TypedJson
