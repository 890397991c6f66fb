import TypedJson.Codec
import TypedJson.Proofs.Reader.Failure
import TypedJson.Proofs.Schema.Spelling

/-! Typed decoding refines skipping. A value of a schema is read only where a value of the grammar
stands, and skipping reads every one of those, so both leave the reader in the same place. -/
namespace TypedJson

open Grammar Reader

theorem Schema.readInto_within (limit depth : Nat) (schema : Schema) (target : schema.Value) :
    Sound (schema.readInto limit target) depth fun _ => ValueWithin (room limit depth) :=
  (schema.readInto_sound limit depth target).imp fun value text =>
    Schema.Spells.within schema value text

theorem Schema.decodeInto_eq (options : Options) (schema : Schema) (target : schema.Value)
    (document : List UInt8) : schema.decodeInto options target document =
      readDocument options (schema.readInto options.depthLimit target) document := by
  simp only [decodeInto, readDocument]
  split <;> simp only [*]

/-- A document that is decoded begins with a text of the value. -/
theorem Schema.spelled_of_decodeInto {options : Options} {schema : Schema}
    {target value : schema.Value} {document : List UInt8}
    (decoded : schema.decodeInto options target document = .ok value) :
    ∃ space text rest, Space space ∧ schema.Spells (room options.depthLimit 0) value text ∧
      document = space ++ text ++ rest ∧ Ends text rest ∧
        (options.allowTrailing = false → Space rest) := by
  rw [decodeInto_eq] at decoded
  exact readDocument_sound (schema.readInto_sound options.depthLimit 0 target) decoded

/-- Wherever a value of the schema is read, skipping succeeds and leaves the same reader. -/
theorem Schema.skip_of_readInto {limit : Nat} {schema : Schema} {target value : schema.Value}
    {before after : Reader} (read : (schema.readInto limit target).run before = .ok value after) :
    (skip limit).run before = .ok () after ∧ after.depth = before.depth := by
  have valid := schema.readInto_within limit before.depth target rfl read
  exact ⟨skip_complete rfl valid, valid.depth⟩

theorem Schema.document_of_decodeInto {options : Options} {schema : Schema}
    {target value : schema.Value} {document : List UInt8}
    (decoded : schema.decodeInto options target document = .ok value) :
    ∃ text rest levels, document = text ++ rest ∧ Document levels text ∧
      (levels = 0 ∨ levels < options.depthLimit) ∧ (options.allowTrailing = false → rest = []) := by
  rw [decodeInto_eq] at decoded
  obtain ⟨text, rest, whole, isDocument, strict⟩ :=
    document_of_readDocument (schema.readInto_within options.depthLimit 0 target) decoded
  have bound : room options.depthLimit 0 = 0 ∨ room options.depthLimit 0 < options.depthLimit := by
    rw [room]
    omega
  exact ⟨text, rest, _, whole, isDocument, bound, strict⟩

/-- No document fails for being left with containers open: a value that was read closed its own. -/
theorem Schema.decodeInto_closed {options : Options} {schema : Schema} {target : schema.Value}
    {document : List UInt8} {error : Error}
    (failed : schema.decodeInto options target document = .error error) :
    error.cause.isUnclosed = false := by
  simp only [decodeInto] at failed
  split at failed
  case h_1 => contradiction
  case h_2 found last run =>
    obtain rfl := Except.error.inj failed
    rw [EStateM.run_bind] at run
    cases read : (schema.readInto options.depthLimit target).run (ofBytes document) with
    | error error reader =>
      rw [read] at run
      obtain ⟨rfl, _⟩ := EStateM.Result.error.inj run
      exact schema.closes_readInto options.depthLimit target read
    | ok value middle =>
      rw [read] at run
      have closed : middle.depth = 0 := (skip_of_readInto read).2
      change ((finish options >>= fun _ => pure value).run middle) = _ at run
      rw [EStateM.run_bind] at run
      cases finished : (finish options).run middle with
      | error error reader =>
        rw [finished] at run
        obtain ⟨rfl, _⟩ := EStateM.Result.error.inj run
        exact finish_closes closed finished
      | ok _ reader =>
        rw [finished] at run
        contradiction

/-- Typed decoding refines skipping: a value that is read, skips to the same reader with the depth
it had before; a document that is decoded is one of the grammar, up to what is allowed to follow it;
and none is refused for containers left open at its end. -/
theorem Schema.refines_skip (schema : Schema) :
    (∀ (limit : Nat) (target value : schema.Value) (before after : Reader),
      (schema.readInto limit target).run before = .ok value after →
        (skip limit).run before = .ok () after ∧ after.depth = before.depth) ∧
    (∀ (options : Options) (target value : schema.Value) (document : List UInt8),
      schema.decodeInto options target document = .ok value →
        ∃ text rest levels, document = text ++ rest ∧ Document levels text ∧
          (levels = 0 ∨ levels < options.depthLimit) ∧
          (options.allowTrailing = false → rest = [])) ∧
    ∀ (options : Options) (target : schema.Value) (document : List UInt8) (error : Error),
      schema.decodeInto options target document = .error error →
        ∀ depth, error.cause ≠ SyntaxError.unclosed depth := by
  refine ⟨?_, ?_, ?_⟩
  · intro limit target value before after read
    exact skip_of_readInto read
  · intro options target value document decoded
    exact document_of_decodeInto decoded
  · intro options target document error failed depth unclosed
    have closed := decodeInto_closed failed
    rw [unclosed] at closed
    contradiction

/-- The list `[true ]` is read, skipped and decoded; without its bracket it is refused, but not for
being left open. -/
theorem Schema.refines_skip_booleans :
    (skip 2).run ⟨[0x5b, 0x74, 0x72, 0x75, 0x65, 0x20, 0x5d], 3, 0⟩ = .ok () ⟨[], 10, 0⟩ ∧
    (∃ levels, Document levels [0x5b, 0x74, 0x72, 0x75, 0x65, 0x20, 0x5d] ∧
      (levels = 0 ∨ levels < 2)) ∧
    ∃ error, (Schema.array .boolean).decodeInto ⟨2, false⟩ [] [0x5b, 0x74, 0x72, 0x75, 0x65] =
      .error error ∧ error.cause ≠ SyntaxError.unclosed 1 := by
  obtain ⟨skips, documents, errors⟩ := Schema.refines_skip (.array .boolean)
  have refused : (Schema.array .boolean).decodeInto ⟨2, false⟩ [] [0x5b, 0x74, 0x72, 0x75, 0x65] =
    .error ⟨SyntaxError.missingElementSeparator, none, 5⟩ := rfl
  refine ⟨(skips 2 [] [true] ⟨_, 3, 0⟩ ⟨[], 10, 0⟩ rfl).1, ?_, _, refused, errors _ _ _ _ refused 1⟩
  obtain ⟨text, rest, levels, whole, isDocument, bound, strict⟩ :=
    documents ⟨2, false⟩ [] [true] [0x5b, 0x74, 0x72, 0x75, 0x65, 0x20, 0x5d] rfl
  rw [strict rfl, List.append_nil] at whole
  exact ⟨levels, whole ▸ isDocument, bound⟩

end TypedJson
