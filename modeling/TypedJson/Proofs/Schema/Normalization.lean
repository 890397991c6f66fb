import TypedJson.Proofs.Schema.Membership
import TypedJson.Proofs.Schema.Refinement
import TypedJson.Proofs.Schema.RoundTrip

/-! Decoding a document and encoding what it held gives its normal form: no whitespace, no unknown
members, the members in the order of the fields. Every value that has a spelling at all has one in
normal form that nests no deeper, so no accepted document lacks one. A normal form is its own. -/
namespace TypedJson

open Grammar Reader

/-- The document with the same value in normal form. -/
def Schema.normalize (options : Options) (schema : Schema) (document : List UInt8) :
    Except Error (List UInt8) := do
  schema.encode (← schema.decode options document)

/-- The document with the same value of a type in normal form. -/
def Codable.normalize (α : Type) [Codable α] (options : Options) (document : List UInt8) :
    Except Error (List UInt8) := do
  encode (← decode α options document)

variable {levels : Nat}

theorem nameText_resolved {names : List String} {index : Nat} {text : List UInt8}
    (spelled : NameText names index text) :
    index < names.length ∧ ∀ name, names[index]? = some name → names.idxOf? name = some index := by
  obtain ⟨_, _, known⟩ := spelled
  obtain ⟨bound, rfl, _⟩ := List.idxOf?_eq_some_iff.mp known
  refine ⟨bound, fun name named => ?_⟩
  rw [List.getElem?_eq_getElem bound] at named
  rwa [← Option.some.inj named]

mutual
/-- A value with a spelling has a text, its names lead back to their places, and it nests no deeper
than the spelling. -/
theorem Schema.Spells.encodable : ∀ (levels : Nat) (schema : Schema) (value : schema.Value)
    (text : List UInt8), schema.Spells levels value text →
      schema.HasText value ∧ schema.IsResolved value ∧ schema.nesting value ≤ levels
  | levels, .boolean, _, _, _ => ⟨trivial, trivial, Nat.zero_le levels⟩
  | levels, .integer _, _, _, _ => ⟨trivial, trivial, Nat.zero_le levels⟩
  | levels, .real, _, _, ⟨_, _, finite⟩ => ⟨finite, trivial, Nat.zero_le levels⟩
  | levels, .string, _, _, _ => ⟨trivial, trivial, Nat.zero_le levels⟩
  | levels, .binary _, _, _, _ => ⟨trivial, trivial, Nat.zero_le levels⟩
  | levels, .enumeration _, _, _, spelled => by
    obtain ⟨bound, resolved⟩ := nameText_resolved spelled
    exact ⟨bound, resolved, Nat.zero_le levels⟩
  | levels, .array element, values, _, spelled => by
    obtain ⟨inside, rfl, texts, body, rfl, _, spelled⟩ := spelled
    have each := forall_of_forall₂
      (fun text value => Schema.Spells.encodable inside element value text) spelled.flip
    exact ⟨fun value member => (each value member).1, fun value member => (each value member).2.1,
      Nat.succ_le_succ (foldr_max_le fun value member => (each value member).2.2)⟩
  | levels, .object fields, record, _, spelled => by
    obtain ⟨inside, members, body, rfl, rfl, _, fills⟩ := spelled
    obtain ⟨hasText, resolved, fits⟩ := Fields.SpellsAt.encodable inside fields record
      fun index bound => by
        obtain ⟨member, _, spelled⟩ := fills.2 index bound
        exact ⟨member.2, spelled⟩
    exact ⟨hasText, ⟨fills.nodup, resolved⟩, Nat.succ_le_succ fits⟩

theorem Fields.SpellsAt.encodable : ∀ (levels : Nat) (fields : Fields) (record : fields.Record),
    (∀ index < fields.names.length, ∃ text, fields.SpellsAt levels index record text) →
      fields.HaveText record ∧ fields.AreResolved record ∧ fields.nesting record ≤ levels
  | levels, .nil, _, _ => ⟨trivial, trivial, Nat.zero_le levels⟩
  | levels, .cons _ schema rest, (value, others), each => by
    obtain ⟨text, spelled⟩ := each 0 (Nat.zero_lt_succ _)
    obtain ⟨hasText, resolved, fits⟩ := Schema.Spells.encodable levels schema value text spelled
    obtain ⟨haveText, areResolved, fit⟩ := Fields.SpellsAt.encodable levels rest others
      fun index bound => each (index + 1) (Nat.succ_lt_succ bound)
    exact ⟨⟨hasText, haveText⟩, ⟨resolved, areResolved⟩, Nat.max_le.mpr ⟨fits, fit⟩⟩
end

theorem Schema.encodable_of_decode {schema : Schema} {options : Options} {document : List UInt8}
    {value : schema.Value} (decoded : schema.decode options document = .ok value) :
    schema.HasText value ∧ schema.IsResolved value ∧
      (schema.nesting value = 0 ∨ schema.nesting value < options.depthLimit) := by
  obtain ⟨_, text, _, _, spelled, _⟩ := spelled_of_decodeInto decoded
  obtain ⟨hasText, resolved, fits⟩ := Schema.Spells.encodable _ schema value text spelled
  refine ⟨hasText, resolved, ?_⟩
  rw [room] at fits
  omega

theorem Codable.decode_ok {α : Type} [Codable α] {options : Options} {document : List UInt8} {a : α}
    (decoded : decode α options document = .ok a) :
    ∃ value, (schema α).decode options document = .ok value ∧ ofValue value = a := by
  rw [decode] at decoded
  cases read : (schema α).decode options document with
  | error error =>
    rw [read] at decoded
    contradiction
  | ok value =>
    rw [read] at decoded
    exact ⟨value, rfl, Except.ok.inj decoded⟩

theorem Codable.nesting_ofValue_list {α : Type} [Codable α]
    (same : ∀ value : (schema α).Value, (schema α).nesting (toValue (ofValue value : α)) =
      (schema α).nesting value) (values : (schema (List α)).Value) :
    (schema (List α)).nesting (toValue (ofValue values : List α)) =
      (schema (List α)).nesting values := by
  have each : ((values.map ofValue).map (toValue (α := α))).map (schema α).nesting =
      values.map (schema α).nesting := by
    rw [List.map_map, List.map_map]
    exact List.map_congr_left fun value _ => same value
  exact congrArg (·.foldr max 0 + 1) each

/-- A value of a record type is as deep as what it was made of, even if that named a place of an
enumeration that there is not. -/
theorem Monero.IsRecord.nesting_ofValue {α : Type} [Codable α] (isRecord : IsRecord α) :
    ∀ value : (Codable.schema α).Value, (Codable.schema α).nesting
      (Codable.toValue (Codable.ofValue value : α)) = (Codable.schema α).nesting value := by
  have hashes : ∀ values : (Codable.schema (List Hash)).Value, (Codable.schema (List Hash)).nesting
      (Codable.toValue (Codable.ofValue values : List Hash)) =
        (Codable.schema (List Hash)).nesting values :=
    Codable.nesting_ofValue_list fun _ => rfl
  induction isRecord with
  | hash | network | empty | announcedTx => exact fun _ => rfl
  | block => exact fun value => congrArg (max · 0 + 1) (hashes value.1)
  | minimalChain => exact fun value => congrArg (max 0 (max · 0) + 1) (hashes value.2.1)
  | list _ ih => exact Codable.nesting_ofValue_list ih

/-- Decoding and encoding again normalizes a document. What was decoded is encoded, that is decoded
to the same value under the same options, and encoding it once more gives the same bytes. The names
of the schema need not be distinct. The same holds of the record types. -/
theorem Schema.normalizes :
    (∀ (schema : Schema) (options : Options) (document : List UInt8) (value : schema.Value),
      schema.decode options document = .ok value →
        ∃ normal, schema.encode value = .ok normal ∧ schema.decode options normal = .ok value ∧
          schema.normalize options normal = .ok normal) ∧
    ∀ (α : Type) [Codable α], Monero.IsRecord α →
      ∀ (options : Options) (document : List UInt8) (a : α),
        Codable.decode α options document = .ok a →
          ∃ normal, Codable.encode a = .ok normal ∧ Codable.decode α options normal = .ok a ∧
            Codable.normalize α options normal = .ok normal := by
  constructor
  · intro schema options document value decoded
    obtain ⟨hasText, resolved, bound⟩ := encodable_of_decode decoded
    obtain ⟨normal, encoded, again⟩ := decode_of_encode resolved hasText bound
    refine ⟨normal, encoded, again, ?_⟩
    rw [normalize, again]
    exact encoded
  · intro α _ isRecord options document a decoded
    obtain ⟨value, read, rfl⟩ := Codable.decode_ok decoded
    have bound := (encodable_of_decode read).2.2
    rw [← isRecord.nesting_ofValue] at bound
    obtain ⟨normal, encoded, again⟩ :=
      Codable.roundTrips isRecord.distinct isRecord.hasText (Codable.ofValue value) options bound
    refine ⟨normal, encoded, again, ?_⟩
    rw [Codable.normalize, again]
    exact encoded

/-- An escape, an unknown member, a minus before zero and the order of the members are gone from the
normal form, and the second of two equal names is never the one read. A list of networks only loses
its whitespace. -/
theorem Schema.normalizes_repeated :
    (Schema.record [("at", .integer .int8), ("mode", .enumeration ["on", "on"])]).normalize
      ⟨3, false⟩ (Utf8.encode "\x7b\"at\":0,\"mode\":\"on\"\x7d".toList) =
        .ok (Utf8.encode "\x7b\"at\":0,\"mode\":\"on\"\x7d".toList) ∧
    Codable.decode (List Monero.Network) {} (Utf8.encode "[\"testnet\"]".toList) =
      .ok [.testnet] := by
  obtain ⟨schemas, records⟩ := Schema.normalizes
  constructor
  · obtain ⟨normal, encoded, _, again⟩ := schemas
      (.record [("at", .integer .int8), ("mode", .enumeration ["on", "on"])]) ⟨3, false⟩
      (Utf8.encode "\x7b \"mode\":\"\\u006Fn\",\"x\":[],\"at\":-0\x7d".toList)
      (.zero, (0 : Nat), ()) (by decide +kernel)
    obtain rfl := Except.ok.inj encoded
    exact again
  · obtain ⟨normal, encoded, again, _⟩ := records (List Monero.Network) (.list .network) {}
      (Utf8.encode "[ \"testnet\"]".toList) [.testnet] (by decide +kernel)
    obtain rfl := Except.ok.inj encoded
    exact again

end TypedJson
