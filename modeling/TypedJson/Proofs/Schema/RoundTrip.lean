import TypedJson.Monero.Chain
import TypedJson.Monero.Network
import TypedJson.Proofs.Schema.Encoding
import TypedJson.Proofs.Schema.Spelling
import TypedJson.Proofs.Writer.Rendering
import TypedJson.Rpc

/-! What is encoded is decoded to the same value. The minified text of a value's tree is one of the
texts that typed decoding takes for the value, provided that names lead back to where they stand. -/
namespace TypedJson

open Grammar Reader

mutual
/-- Whether the names of an enumeration, and those of the fields of an object, are distinct. -/
def Schema.HasDistinctNames : Schema → Prop
  | .enumeration names => names.Nodup
  | .array element => element.HasDistinctNames
  | .object fields => fields.names.Nodup ∧ fields.HaveDistinctNames
  | _ => True

def Fields.HaveDistinctNames : Fields → Prop
  | .nil => True
  | .cons _ schema rest => schema.HasDistinctNames ∧ rest.HaveDistinctNames
end

mutual
def Schema.decideDistinctNames : (schema : Schema) → Decidable schema.HasDistinctNames
  | .boolean => .isTrue trivial
  | .integer _ => .isTrue trivial
  | .real => .isTrue trivial
  | .string => .isTrue trivial
  | .binary _ => .isTrue trivial
  | .enumeration names => inferInstanceAs (Decidable names.Nodup)
  | .array element => element.decideDistinctNames
  | .object fields => @instDecidableAnd _ _ _ fields.decideDistinctNames

def Fields.decideDistinctNames : (fields : Fields) → Decidable fields.HaveDistinctNames
  | .nil => .isTrue trivial
  | .cons _ schema rest =>
    @instDecidableAnd _ _ schema.decideDistinctNames rest.decideDistinctNames
end

instance (schema : Schema) : Decidable schema.HasDistinctNames := schema.decideDistinctNames

mutual
/-- Whether the names a value is written with lead back to their places, those of repeated names
being lost. -/
def Schema.IsResolved : (schema : Schema) → schema.Value → Prop
  | .enumeration names, index => ∀ name, names[index]? = some name → names.idxOf? name = some index
  | .array element, values => ∀ value ∈ values, element.IsResolved value
  | .object fields, record => fields.names.Nodup ∧ fields.AreResolved record
  | _, _ => True

def Fields.AreResolved : (fields : Fields) → fields.Record → Prop
  | .nil, _ => True
  | .cons _ schema rest, (value, others) => schema.IsResolved value ∧ rest.AreResolved others
end

variable {names : List String} {name : String} {index levels : Nat} {tree : Tree}
  {members : List (String × Tree)}

theorem idxOf?_of_nodup (distinct : names.Nodup) (named : names[index]? = some name) :
    names.idxOf? name = some index := by
  obtain ⟨bound, rfl⟩ := List.getElem?_eq_some_iff.mp named
  refine List.idxOf?_eq_some_iff.mpr ⟨bound, rfl, fun other before same => ?_⟩
  have := (List.Nodup.getElem_inj_iff distinct).mp same
  omega

mutual
theorem Schema.HasDistinctNames.isResolved : ∀ (schema : Schema), schema.HasDistinctNames →
    ∀ value, schema.IsResolved value
  | .boolean, _, _ => trivial
  | .integer _, _, _ => trivial
  | .real, _, _ => trivial
  | .string, _, _ => trivial
  | .binary _, _, _ => trivial
  | .enumeration _, distinct, _ => fun _ => idxOf?_of_nodup distinct
  | .array element, distinct, _ => fun value _ =>
    Schema.HasDistinctNames.isResolved element distinct value
  | .object fields, ⟨distinct, each⟩, record =>
    ⟨distinct, Fields.HaveDistinctNames.areResolved fields each record⟩

theorem Fields.HaveDistinctNames.areResolved : ∀ (fields : Fields), fields.HaveDistinctNames →
    ∀ record, fields.AreResolved record
  | .nil, _, _ => trivial
  | .cons _ schema rest, ⟨distinct, following⟩, (value, others) =>
    ⟨Schema.HasDistinctNames.isResolved schema distinct value,
      Fields.HaveDistinctNames.areResolved rest following others⟩
end

/-! The text of a tree spells the value -/

theorem Fields.trees?_names : ∀ (fields : Fields) (record : fields.Record)
    (members : List (String × Tree)), fields.trees? record = some members →
      members.map Prod.fst = fields.names
  | .nil, _, _, rfl => rfl
  | .cons name _ rest, (_, others), _, found => by
    rw [Fields.trees?] at found
    obtain ⟨tree, _, found⟩ := Option.bind_eq_some_iff.mp found
    obtain ⟨following, also, rfl⟩ := Option.map_eq_some_iff.mp found
    rw [List.map_cons, rest.trees?_names others following also, Fields.names]

/-- Each of some distinct names is met by its own member alone. -/
theorem filter_resolves {texts : List (String × List UInt8)} (distinct : names.Nodup)
    (same : texts.map Prod.fst = names) (bound : index < texts.length) :
    texts.filter (resolves names index) = [texts[index]] := by
  have resolve (other : Nat) (inside : other < texts.length) :
      resolves names index texts[other] = (other == index) := by
    have named : names[other]? = some texts[other].1 := by
      rw [← same, List.getElem?_map, List.getElem?_eq_getElem inside, Option.map_some]
    rw [resolves, idxOf?_of_nodup distinct named]
    rfl
  have before : (texts.take index).filter (resolves names index) = [] := by
    apply List.filter_eq_nil_iff.mpr
    intro member inside
    obtain ⟨other, short, rfl⟩ := List.mem_take_iff_getElem.mp inside
    rw [resolve other (by omega), beq_iff_eq]
    omega
  have after : (texts.drop (index + 1)).filter (resolves names index) = [] := by
    apply List.filter_eq_nil_iff.mpr
    intro member inside
    obtain ⟨other, short, rfl⟩ := List.mem_drop_iff_getElem.mp inside
    rw [resolve (index + 1 + other) (by omega), beq_iff_eq]
    omega
  have here : resolves names index texts[index] = true := by
    rw [resolve index bound, beq_self_eq_true]
  calc texts.filter (resolves names index)
      = (texts.take index ++ texts.drop index).filter (resolves names index) := by
        rw [List.take_append_drop]
    _ = [texts[index]] := by
        rw [List.drop_eq_getElem_cons bound, List.filter_append, before,
          List.filter_cons_of_pos here, after, List.nil_append]

theorem forall₂_renderAll {α : Type} {values : List α} {trees : List Tree} {tree? : α → Option Tree}
    {language : α → List UInt8 → Prop} (spells : ∀ value ∈ values, ∀ tree,
      tree? value = some tree → tree.nesting ≤ levels → language value tree.render)
    (each : List.Forall₂ (fun value tree => tree? value = some tree) values trees)
    (bound : Tree.nestingAll trees ≤ levels) :
    List.Forall₂ language values (Tree.renderAll trees) := by
  induction each with
  | nil => exact .nil
  | cons first following ih =>
    obtain ⟨spelled, spells⟩ := List.forall_mem_cons.mp spells
    obtain ⟨fits, bound⟩ := Nat.max_le.mp bound
    exact .cons (spelled _ first fits) (ih spells bound)

mutual
/-- The text of its tree is one of the texts of a value. -/
theorem Schema.spells_render (levels : Nat) : ∀ (schema : Schema) (value : schema.Value)
    (tree : Tree), schema.tree? value = some tree → schema.IsResolved value →
      tree.nesting ≤ levels → schema.Spells levels value tree.render
  | .boolean, _, _, rfl, _, _ => rfl
  | .integer _, value, _, rfl, _, _ => ⟨Numeral.number_ofInt value.value,
      Numeral.isIntegral_ofInt value.value, Numeral.toInt_ofInt value.value true⟩
  | .real, value, tree, found, _, _ => by
    rw [Schema.tree?] at found
    split at found
    case isTrue finite =>
      obtain rfl := Option.some.inj found
      exact ⟨value.number_text, Binary64.toBinary64_text finite, finite⟩
    case isFalse => contradiction
  | .string, value, _, rfl, _, _ => Escape.quoted_token value
  | .binary _, value, _, rfl, _, _ => by
    obtain ⟨token, same⟩ := Hex.token_encode value.toList
    refine ⟨_, token, ?_⟩
    rw [same, Hex.decode_encode]
  | .enumeration names, index, tree, found, resolved, _ => by
    rw [Schema.tree?] at found
    obtain ⟨name, named, rfl⟩ := Option.map_eq_some_iff.mp found
    exact ⟨name, Escape.quoted_token name, resolved name named⟩
  | .array element, values, tree, found, resolved, bound => by
    rw [Schema.tree?] at found
    obtain ⟨trees, mapped, rfl⟩ := Option.map_eq_some_iff.mp found
    obtain ⟨inside, rfl⟩ : ∃ n, levels = n + 1 := ⟨levels - 1, by rw [Tree.nesting] at bound; omega⟩
    refine ⟨inside, rfl, _, _, rfl, Tree.elements_separated _, ?_⟩
    exact forall₂_renderAll (fun value member tree found fits =>
      element.spells_render inside value tree found (resolved value member) fits)
      (forall₂_of_mapM mapped) (Nat.le_of_succ_le_succ bound)
  | .object fields, record, tree, found, ⟨distinct, resolved⟩, bound => by
    rw [Schema.tree?] at found
    obtain ⟨members, also, rfl⟩ := Option.map_eq_some_iff.mp found
    obtain ⟨inside, rfl⟩ : ∃ n, levels = n + 1 := ⟨levels - 1, by rw [Tree.nesting] at bound; omega⟩
    have valids := Tree.members_separated (members.map fun member => (member.1, member.2.render))
    have same := fields.trees?_names record members also
    have texts : (members.map fun member => (member.1, member.2.render)).map Prod.fst =
        fields.names := by rw [List.map_map, ← same]; rfl
    refine ⟨inside, _, _, rfl, ?_, valids, fun member listed unknown => ?_, fun index known => ?_⟩
    · rw [List.map_map, Tree.render, Tree.renderMembers_eq]
      rfl
    · -- every member has the name of a field
      have known : member.1 ∈ fields.names := by
        rw [← texts]
        exact List.mem_map_of_mem listed
      exact absurd known (List.idxOf?_eq_none_iff.mp unknown)
    · have short : index < members.length := by rwa [← same, List.length_map] at known
      refine ⟨_, filter_resolves distinct texts (by rwa [List.length_map]), ?_⟩
      rw [List.getElem_map]
      exact fields.spellsAt_render inside record members index short also resolved
        (Nat.le_of_succ_le_succ bound)

theorem Fields.spellsAt_render (levels : Nat) : ∀ (fields : Fields) (record : fields.Record)
    (members : List (String × Tree)) (index : Nat) (bound : index < members.length),
      fields.trees? record = some members → fields.AreResolved record →
        Tree.nestingMembers members ≤ levels →
          fields.SpellsAt levels index record members[index].2.render
  | .nil, _, _, _, bound, rfl, _, _ => absurd bound (Nat.not_lt_zero _)
  | .cons _ schema rest, (value, others), _, index, bound, found, ⟨resolved, following⟩, fits => by
    rw [Fields.trees?] at found
    obtain ⟨tree, first, found⟩ := Option.bind_eq_some_iff.mp found
    obtain ⟨members, also, rfl⟩ := Option.map_eq_some_iff.mp found
    obtain ⟨fit, fits⟩ := Nat.max_le.mp fits
    cases index with
    | zero => exact schema.spells_render levels value tree first resolved fit
    | succ index =>
      exact rest.spellsAt_render levels others members index (Nat.lt_of_succ_lt_succ bound) also
        following fits
end

/-- A text of a value, alone, is decoded to it. -/
theorem Schema.decodeInto_of_spells {options : Options} {schema : Schema}
    {target value : schema.Value} {text : List UInt8}
    (spelled : schema.Spells (room options.depthLimit 0) value text) :
    schema.decodeInto options target text = .ok value := by
  obtain ⟨after, closed, ended, whole⟩ : ∃ after : Reader,
      after.depth = 0 ∧ after.unread = [] ∧ Passes (ofBytes text) text after :=
    ⟨⟨[], _, 0⟩, rfl, rfl, (List.append_nil text).symm, rfl, rfl⟩
  have ends : Ends text after.unread := by
    rw [ended]
    exact ends_of_space .nil
  have read := schema.readInto_complete options.depthLimit 0 target rfl
    ⟨[], text, .nil, spelled, whole, ends⟩
  obtain ⟨last, finished⟩ : ∃ last, (finish options).run after = .ok () last :=
    finish_of_space closed .nil (Passes.refl after) ended
  rw [decodeInto]
  simp only [run_bind_of_ok read, run_bind_of_ok finished]
  rfl

theorem Schema.decode_of_encode {schema : Schema} {value : schema.Value} {options : Options}
    (resolved : schema.IsResolved value) (hasText : schema.HasText value)
    (bound : schema.nesting value = 0 ∨ schema.nesting value < options.depthLimit) :
    ∃ document, schema.encode value = .ok document ∧
      schema.decode options document = .ok value := by
  obtain ⟨tree, found, depth⟩ := schema.exists_tree value hasText
  refine ⟨tree.render, Schema.encode_eq found, Schema.decodeInto_of_spells ?_⟩
  refine schema.spells_render _ value tree found resolved ?_
  rw [room, depth]
  omega

/-! Types that come with a schema -/

/-- Whether each value of a type is encoded to a document that is decoded to it. -/
def Codable.RoundTrips (α : Type) [Codable α] : Prop :=
  ∀ (a : α) (options : Options), ((schema α).nesting (toValue a) = 0 ∨
    (schema α).nesting (toValue a) < options.depthLimit) →
      ∃ document, encode a = .ok document ∧ decode α options document = .ok a

/-- The types of records, and of lists of them. -/
inductive Monero.IsRecord : (α : Type) → [Codable α] → Prop where
  | hash : IsRecord Hash
  | network : IsRecord Network
  | empty : IsRecord Rpc.Empty
  | announcedTx : IsRecord AnnouncedTx
  | block : IsRecord Block
  | minimalChain : IsRecord MinimalChain
  | list [Codable α] : IsRecord α → IsRecord (List α)

theorem Codable.roundTrips {α : Type} [Codable α] (distinct : (schema α).HasDistinctNames)
    (hasText : ∀ a : α, (schema α).HasText (toValue a)) : RoundTrips α := by
  intro a options bound
  have resolved := Schema.HasDistinctNames.isResolved _ distinct (toValue a)
  obtain ⟨document, encoded, decoded⟩ := Schema.decode_of_encode resolved (hasText a) bound
  refine ⟨document, encoded, ?_⟩
  rw [decode, decoded, Except.map, ofValue_toValue]

theorem Monero.IsRecord.distinct {α : Type} [Codable α] (isRecord : IsRecord α) :
    (Codable.schema α).HasDistinctNames := by
  induction isRecord with
  | hash | network | empty | announcedTx | block | minimalChain => decide
  | list _ ih => exact ih

theorem Monero.IsRecord.hasText {α : Type} [Codable α] (isRecord : IsRecord α) :
    ∀ a : α, (Codable.schema α).HasText (Codable.toValue a) := by
  induction isRecord with
  | hash => exact fun _ => trivial
  | network =>
    intro network
    change Network.all.idxOf network < (Network.all.map Network.name).length
    cases network <;> decide
  | empty => exact fun _ => trivial
  | announcedTx => exact fun _ => ⟨trivial, trivial⟩
  | block => exact fun _ => ⟨fun _ _ => trivial, trivial, trivial⟩
  | minimalChain => exact fun _ => ⟨trivial, fun _ _ => trivial, trivial, trivial⟩
  | list _ ih => exact fun values => List.forall_mem_map.mpr fun value _ => ih value

/-- A value of a schema is encoded to a document, and that is decoded to the value, by any options
whose limit its nesting stays below, if the names of the schema are distinct and the value has a
text. All values of the record types do. -/
theorem Schema.decodes_encoded :
    (∀ (schema : Schema) (value : schema.Value) (options : Options),
      schema.HasDistinctNames → schema.HasText value →
        (schema.nesting value = 0 ∨ schema.nesting value < options.depthLimit) →
          ∃ document, schema.encode value = .ok document ∧
            schema.decode options document = .ok value) ∧
    ∀ (α : Type) [Codable α], Monero.IsRecord α → Codable.RoundTrips α := by
  constructor
  · intro schema value options distinct hasText bound
    have resolved := HasDistinctNames.isResolved schema distinct value
    exact decode_of_encode resolved hasText bound
  · intro α _ isRecord
    exact Codable.roundTrips isRecord.distinct isRecord.hasText

/-- A record with a list and an enumeration is written as below and read back where two containers
may be open; so is a list of networks where one may. -/
theorem Schema.decodes_encoded_levels :
    (Schema.record [("on", .boolean), ("levels", .array (.integer .int8)),
      ("mode", .enumeration ["low", "high"])]).decode ⟨3, false⟩
        (Utf8.encode "\x7b\"on\":true,\"levels\":[-7,0],\"mode\":\"high\"\x7d".toList) =
          .ok (true, [⟨-7, by decide, by decide⟩, .zero], 1, ()) ∧
    ∃ document, Codable.encode [Monero.Network.testnet] = .ok document ∧
      Codable.decode (List Monero.Network) ⟨2, true⟩ document = .ok [.testnet] := by
  obtain ⟨schemas, records⟩ := Schema.decodes_encoded
  constructor
  · obtain ⟨document, encoded, decoded⟩ := schemas
      (.record [("on", .boolean), ("levels", .array (.integer .int8)),
        ("mode", .enumeration ["low", "high"])])
      (true, [⟨-7, by decide, by decide⟩, .zero], 1, ()) ⟨3, false⟩
      (by decide) ⟨trivial, fun _ _ => trivial, Nat.lt_succ_self 1, trivial⟩ (.inr (by decide))
    obtain rfl := Except.ok.inj encoded
    exact decoded
  · exact records (List Monero.Network) (.list .network) [.testnet] ⟨2, true⟩ (.inr (by decide))

end TypedJson
