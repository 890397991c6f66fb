import TypedJson.Proofs.Schema.Encoding
import TypedJson.Proofs.Writer.Appending
import TypedJson.Rpc

/-! Encoding is compositional. A value is written the same wherever it may come next, so the document
of a container is made of the documents of its parts; and writing fails only for the first part
that has no text. -/
namespace TypedJson

open Writer

mutual
/-- The first part of a value that has no text, in the order in which the parts are written. -/
def Schema.flaw? : (schema : Schema) → schema.Value → Option Flaw
  | .real, value => if value.isFinite then none else some (.notFinite value)
  | .enumeration names, index => if index < names.length then none else some (.unnamed index names)
  | .array element, values => values.findSome? element.flaw?
  | .object fields, record => fields.flaw? record
  | _, _ => none

def Fields.flaw? : (fields : Fields) → fields.Record → Option Flaw
  | .nil, _ => none
  | .cons _ schema rest, (value, others) => (schema.flaw? value).or (rest.flaw? others)
end

/-- The documents of the fields with their names, in the order in which they are declared. -/
def Fields.Encode : (fields : Fields) → fields.Record → List (String × List UInt8) → Prop
  | .nil, _, members => members = []
  | .cons name schema rest, (value, others), members => ∃ text following,
    schema.encode value = .ok text ∧ rest.Encode others following ∧
      members = (name, text) :: following

mutual
theorem Schema.flaw?_eq_none_iff : ∀ (schema : Schema) (value : schema.Value),
    schema.flaw? value = none ↔ schema.HasText value
  | .boolean, _ | .integer _, _ | .string, _ | .binary _, _ => iff_of_true rfl trivial
  | .real, value => by simp [Schema.flaw?, Schema.HasText]
  | .enumeration names, index => by simp [Schema.flaw?, Schema.HasText]
  | .array element, values => by
    rw [Schema.flaw?, List.findSome?_eq_none_iff]
    exact forall₂_congr fun value _ => element.flaw?_eq_none_iff value
  | .object fields, record => fields.flaw?_eq_none_iff record

theorem Fields.flaw?_eq_none_iff : ∀ (fields : Fields) (record : fields.Record),
    fields.flaw? record = none ↔ fields.HaveText record
  | .nil, _ => iff_of_true rfl trivial
  | .cons _ schema rest, (value, others) => by
    rw [Fields.flaw?, Option.or_eq_none_iff, schema.flaw?_eq_none_iff value,
      rest.flaw?_eq_none_iff others]
    rfl
end

mutual
/-- A value is written as the text of its tree. -/
theorem Schema.appends : ∀ (schema : Schema) (value : schema.Value) (tree : Tree),
    schema.tree? value = some tree → Appends (schema.write value) tree.render
  | .boolean, _, _, rfl => appends_scalar _
  | .integer _, _, _, rfl => appends_scalar _
  | .real, value, tree, found => by
    rw [Schema.tree?] at found
    split at found
    case isTrue finite =>
      obtain rfl := Option.some.inj found
      rw [Schema.write, Writer.real, if_pos finite]
      exact appends_scalar _
    case isFalse => contradiction
  | .string, _, _, rfl => appends_scalar _
  | .binary _, _, _, rfl => appends_scalar _
  | .enumeration names, index, tree, found => by
    rw [Schema.tree?] at found
    obtain ⟨name, named, rfl⟩ := Option.map_eq_some_iff.mp found
    rw [Schema.write, Writer.enumeration, named]
    exact appends_scalar _
  | .array element, values, tree, found => by
    rw [Schema.tree?] at found
    obtain ⟨trees, mapped, rfl⟩ := Option.map_eq_some_iff.mp found
    have each : List.Forall₂ (fun value text => Appends (element.write value) text) values
        (trees.map Tree.render) := by
      rw [List.forall₂_map_right_iff]
      exact (forall₂_of_mapM mapped).imp element.appends
    rw [Tree.render, Tree.renderAll_eq, ← entries_eq]
    exact appends_container (fun _ _ _ => elements_run each) fun _ _ _ => rfl
  | .object fields, record, tree, found => by
    rw [Schema.tree?] at found
    obtain ⟨members, also, rfl⟩ := Option.map_eq_some_iff.mp found
    rw [Tree.render, ← entries_eq]
    exact appends_container (fun _ _ _ => fields.append record members also) fun _ _ _ => rfl

/-- Fields are written as members after those that are there. -/
theorem Fields.append : ∀ (fields : Fields) (record : fields.Record)
    (members : List (String × Tree)), fields.trees? record = some members →
      ∀ {written : Array UInt8} {count : Nat} {outer : List Scope} {complete : Bool},
        (fields.write record).run ⟨written, .object count false :: outer, complete⟩ =
          .ok () ⟨written ++ entries count (Tree.renderMembers members),
            .object (count + members.length) false :: outer, complete⟩
  | .nil, _, _, rfl, _, _, _, _ => by
    rw [Tree.renderMembers, entries, append_nil]
    rfl
  | .cons name schema rest, (value, others), members, found, written, count, outer, complete => by
    rw [Fields.trees?] at found
    obtain ⟨tree, first, found⟩ := Option.bind_eq_some_iff.mp found
    obtain ⟨following, also, rfl⟩ := Option.map_eq_some_iff.mp found
    rw [Fields.write, ← bind_assoc, run_bind_of_ok (member_run name (schema.appends value tree first)),
      rest.append others following also, append_append, Tree.renderMembers, entries,
      List.length_cons, Nat.add_right_comm count, Nat.add_assoc]
end

/-- A value without a flaw has a text. -/
theorem Schema.appends_of_none (schema : Schema) (value : schema.Value)
    (sound : schema.flaw? value = none) : ∃ text, Appends (schema.write value) text := by
  obtain ⟨tree, found, _⟩ := schema.exists_tree value ((schema.flaw?_eq_none_iff value).mp sound)
  exact ⟨_, schema.appends value tree found⟩

mutual
/-- Writing a value fails for its first flaw. -/
theorem Schema.fails : ∀ (schema : Schema) (value : schema.Value) (flaw : Flaw),
    schema.flaw? value = some flaw → Fails (schema.write value) flaw
  | .boolean, _, _, found | .integer _, _, _, found | .string, _, _, found | .binary _, _, _, found =>
    nomatch found
  | .real, value, flaw, found => by
    rw [Schema.flaw?] at found
    split at found
    case isTrue => contradiction
    case isFalse infinite =>
      obtain rfl := Option.some.inj found
      intro writer _
      rw [Schema.write, Writer.real, if_neg infinite]
      exact ⟨writer, rfl⟩
  | .enumeration names, index, flaw, found => by
    rw [Schema.flaw?] at found
    split at found
    case isTrue => contradiction
    case isFalse outside =>
      obtain rfl := Option.some.inj found
      intro writer _
      rw [Schema.write, Writer.enumeration, List.getElem?_eq_none (Nat.le_of_not_lt outside)]
      exact ⟨writer, rfl⟩
  | .array element, values, flaw, found =>
    fails_container fun _ _ _ => elements_fail element.appends_of_none element.fails found
  | .object fields, record, flaw, found =>
    fails_container fun _ _ _ => fields.fail record flaw found

theorem Fields.fail : ∀ (fields : Fields) (record : fields.Record) (flaw : Flaw),
    fields.flaw? record = some flaw →
      ∀ {written : Array UInt8} {count : Nat} {outer : List Scope} {complete : Bool},
        ∃ last, (fields.write record).run ⟨written, .object count false :: outer, complete⟩ =
          .error (flaw.error last) last
  | .nil, _, _, found, _, _, _, _ => nomatch found
  | .cons name schema rest, (value, others), flaw, found, written, count, outer, complete => by
    rw [Fields.flaw?] at found
    rw [Fields.write]
    cases first : schema.flaw? value with
    | some other =>
      rw [first] at found
      obtain rfl := Option.some.inj found
      obtain ⟨last, failed⟩ := schema.fails value other first
        (show (⟨written ++ (comma count ++ (Escape.quoted name.toList ++ [Ascii.colon])),
          .object (count + 1) true :: outer, complete⟩ : Writer).awaits = true from rfl)
      refine ⟨last, ?_⟩
      rw [run_bind_of_ok (key_run name), run_bind_error failed]
    | none =>
      rw [first] at found
      obtain ⟨text, appends⟩ := schema.appends_of_none value first
      rw [← bind_assoc, run_bind_of_ok (member_run name appends)]
      exact rest.fail others flaw found
end

/-! Documents of containers -/

theorem Schema.encode_ok_iff {schema : Schema} {value : schema.Value} {text : List UInt8} :
    schema.encode value = .ok text ↔ ∃ tree, schema.tree? value = some tree ∧ text = tree.render := by
  constructor
  · intro encoded
    cases flawed : schema.flaw? value with
    | none =>
      obtain ⟨tree, found, _⟩ :=
        schema.exists_tree value ((schema.flaw?_eq_none_iff value).mp flawed)
      rw [encode_eq found] at encoded
      exact ⟨tree, found, (Except.ok.inj encoded).symm⟩
    | some flaw =>
      obtain ⟨last, failed⟩ := schema.fails value flaw flawed (show Writer.empty.awaits = true from rfl)
      have stopped : (schema.write value >>= fun _ => take).run .empty = _ := run_bind_error failed
      simp only [encode, stopped] at encoded
      contradiction
  · rintro ⟨tree, found, rfl⟩
    exact encode_eq found

/-- The documents of some values are the texts of their trees. -/
theorem Schema.encode_each_iff {schema : Schema} {values : List schema.Value}
    {texts : List (List UInt8)} :
    List.Forall₂ (fun value text => schema.encode value = .ok text) values texts ↔
      ∃ trees, values.mapM schema.tree? = some trees ∧ texts = trees.map Tree.render := by
  induction values generalizing texts with
  | nil => simp
  | cons value values ih =>
    rw [List.forall₂_cons_left_iff]
    constructor
    · rintro ⟨text, texts, first, following, rfl⟩
      obtain ⟨tree, found, rfl⟩ := encode_ok_iff.mp first
      obtain ⟨trees, mapped, rfl⟩ := ih.mp following
      refine ⟨tree :: trees, ?_, rfl⟩
      rw [List.mapM_cons, found, mapped]
      rfl
    · rintro ⟨trees, mapped, rfl⟩
      rw [List.mapM_cons] at mapped
      obtain ⟨tree, found, mapped⟩ := Option.bind_eq_some_iff.mp mapped
      obtain ⟨trees, following, same⟩ := Option.bind_eq_some_iff.mp mapped
      obtain rfl := Option.some.inj same
      exact ⟨_, _, encode_eq found, ih.mpr ⟨trees, following, rfl⟩, rfl⟩

theorem Schema.encode_array_iff {element : Schema} {values : List element.Value}
    {text : List UInt8} : (Schema.array element).encode values = .ok text ↔
      ∃ texts, List.Forall₂ (fun value text => element.encode value = .ok text) values texts ∧
        text = Ascii.openBracket :: Tree.separated texts ++ [Ascii.closeBracket] := by
  rw [encode_ok_iff]
  simp only [encode_each_iff, Schema.tree?, Option.map_eq_some_iff]
  constructor
  · rintro ⟨_, ⟨trees, mapped, rfl⟩, rfl⟩
    refine ⟨_, ⟨trees, mapped, rfl⟩, ?_⟩
    rw [Tree.render, Tree.renderAll_eq]
  · rintro ⟨_, ⟨trees, mapped, rfl⟩, rfl⟩
    refine ⟨_, ⟨trees, mapped, rfl⟩, ?_⟩
    rw [Tree.render, Tree.renderAll_eq]

theorem Fields.encode_iff : ∀ (fields : Fields) (record : fields.Record)
    (members : List (String × List UInt8)), fields.Encode record members ↔
      ∃ trees, fields.trees? record = some trees ∧
        members = trees.map fun member => (member.1, member.2.render)
  | .nil, _, members => by simp [Fields.Encode, Fields.trees?]
  | .cons name schema rest, (value, others), members => by
    simp only [Fields.Encode, Fields.trees?, Schema.encode_ok_iff, rest.encode_iff,
      Option.bind_eq_some_iff, Option.map_eq_some_iff]
    constructor
    · rintro ⟨_, _, ⟨tree, found, rfl⟩, ⟨trees, also, rfl⟩, rfl⟩
      exact ⟨_, ⟨tree, found, trees, also, rfl⟩, rfl⟩
    · rintro ⟨_, ⟨tree, found, trees, also, rfl⟩, rfl⟩
      exact ⟨_, _, ⟨tree, found, rfl⟩, ⟨trees, also, rfl⟩, rfl⟩

theorem Schema.encode_object_iff {fields : Fields} {record : fields.Record}
    {text : List UInt8} : (Schema.object fields).encode record = .ok text ↔
      ∃ members, fields.Encode record members ∧ text = Ascii.openBrace ::
        Tree.separated (members.map fun member => Tree.named member.1 member.2) ++
          [Ascii.closeBrace] := by
  simp only [encode_ok_iff, fields.encode_iff, Schema.tree?, Option.map_eq_some_iff]
  constructor
  · rintro ⟨_, ⟨trees, found, rfl⟩, rfl⟩
    refine ⟨_, ⟨trees, found, rfl⟩, ?_⟩
    rw [Tree.render, Tree.renderMembers_eq, List.map_map]
    rfl
  · rintro ⟨_, ⟨trees, found, rfl⟩, rfl⟩
    refine ⟨_, ⟨trees, found, rfl⟩, ?_⟩
    rw [Tree.render, Tree.renderMembers_eq, List.map_map]
    rfl

/-- The envelope of a call around the document of its parameters. -/
def Rpc.Request.envelope {method : Rpc.Method} (request : Rpc.Request method)
    (params : List UInt8) : List UInt8 :=
  Ascii.openBrace :: Tree.separated
    [Tree.named "id" (Numeral.ofInt request.id.toNat),
      Tree.named "jsonrpc" (Escape.quoted Rpc.version.toList),
      Tree.named "method" (Escape.quoted method.name.toList), Tree.named "params" params] ++
    [Ascii.closeBrace]

theorem Schema.encode_string (text : String) :
    Schema.string.encode text = .ok (Escape.quoted text.toList) :=
  encode_ok_iff.mpr ⟨.leaf (.string text), rfl, rfl⟩

theorem Rpc.Request.encode_iff {method : Rpc.Method} {request : Rpc.Request method}
    {text : List UInt8} : request.encode = .ok text ↔
      ∃ params, Codable.encode request.params = .ok params ∧ text = request.envelope params := by
  have id : (Schema.integer .uint32).encode (Codable.toValue request.id) =
      .ok (Numeral.ofInt request.id.toNat) :=
    Schema.encode_ok_iff.mpr ⟨.leaf (.integer request.id.toNat), rfl, rfl⟩
  have version := Schema.encode_string Rpc.version
  have name := Schema.encode_string method.name
  refine Schema.encode_object_iff.trans ?_
  constructor
  · rintro ⟨_, ⟨_, _, first, ⟨_, _, second, ⟨_, _, third, ⟨params, _, last, rfl, rfl⟩, rfl⟩, rfl⟩,
      rfl⟩, rfl⟩
    obtain rfl := Except.ok.inj (id.symm.trans first)
    obtain rfl := Except.ok.inj (version.symm.trans second)
    obtain rfl := Except.ok.inj (name.symm.trans third)
    exact ⟨params, last, rfl⟩
  · rintro ⟨params, last, rfl⟩
    exact ⟨_, ⟨_, _, id, ⟨_, _, version, ⟨_, _, name, ⟨params, _, last, rfl, rfl⟩, rfl⟩, rfl⟩, rfl⟩,
      rfl⟩

/-- Wherever a value may come next, writing one succeeds exactly if it has a text. Then its document
is added, which is told by the value alone, after a comma where one is due, and the containers
around it stay of their kinds. Otherwise the failure is that of its first part without a text. The
document of a list or of a record is made of those of its elements, or of its fields as they are
declared; that of a call is the envelope around its parameters. -/
theorem Schema.encoding_composes :
    (∀ (schema : Schema) (value : schema.Value) (writer : Writer), writer.awaits = true →
      ((∃ after, (schema.write value).run writer = .ok () after) ↔ schema.HasText value) ∧
      (∀ after, (schema.write value).run writer = .ok () after →
        ∃ text, schema.encode value = .ok text ∧ after = writer.withValue text ∧
          after.scopes.map Scope.container = writer.scopes.map Scope.container) ∧
      ∀ error last, (schema.write value).run writer = .error error last →
        ∃ flaw, schema.flaw? value = some flaw ∧ error = flaw.error last) ∧
    (∀ (element : Schema) (values : List element.Value) (text : List UInt8),
      (Schema.array element).encode values = .ok text ↔
        ∃ texts, List.Forall₂ (fun value text => element.encode value = .ok text) values texts ∧
          text = Ascii.openBracket :: Tree.separated texts ++ [Ascii.closeBracket]) ∧
    (∀ (fields : Fields) (record : fields.Record) (text : List UInt8),
      (Schema.object fields).encode record = .ok text ↔
        ∃ members, fields.Encode record members ∧ text = Ascii.openBrace ::
          Tree.separated (members.map fun member => Tree.named member.1 member.2) ++
            [Ascii.closeBrace]) ∧
    ∀ (method : Rpc.Method) (request : Rpc.Request method) (text : List UInt8),
      request.encode = .ok text ↔
        ∃ params, Codable.encode request.params = .ok params ∧ text = request.envelope params := by
  refine ⟨?_, fun _ _ _ => encode_array_iff, fun _ _ _ => encode_object_iff,
    fun _ _ _ => Rpc.Request.encode_iff⟩
  intro schema value writer awaits
  rw [← schema.flaw?_eq_none_iff value]
  cases flawed : schema.flaw? value with
  | none =>
    obtain ⟨tree, found, _⟩ :=
      schema.exists_tree value ((schema.flaw?_eq_none_iff value).mp flawed)
    have run := schema.appends value tree found awaits
    refine ⟨iff_of_true ⟨_, run⟩ rfl, ?_, ?_⟩
    · intro after again
      rw [run] at again
      obtain ⟨_, rfl⟩ := EStateM.Result.ok.inj again
      exact ⟨tree.render, encode_eq found, rfl, containers_withValue tree.render writer⟩
    · intro error last failed
      rw [run] at failed
      contradiction
  | some flaw =>
    obtain ⟨last, run⟩ := schema.fails value flaw flawed awaits
    refine ⟨iff_of_false ?_ nofun, ?_, ?_⟩
    · rintro ⟨after, written⟩
      rw [run] at written
      contradiction
    · intro after written
      rw [run] at written
      contradiction
    · intro error final failed
      rw [run] at failed
      obtain ⟨rfl, rfl⟩ := EStateM.Result.error.inj failed
      exact ⟨flaw, rfl, rfl⟩

/-- After a first element a record is written behind a comma; one with an infinite number and then
a nameless place fails for the number. -/
theorem Schema.encoding_composes_sibling :
    (∃ after, ((Schema.record [("k", .array .boolean)]).write ([true, false], ())).run
        ⟨#[0x5b, 0x31], [.array 1, .object 1 false], false⟩ = .ok () after ∧
      after.text.toList = Utf8.encode "[1,\x7b\"k\":[true,false]\x7d".toList ∧
      after.scopes.map Scope.container = [.array, .object]) ∧
    ∃ error last, ((Schema.record [("a", .real), ("b", .enumeration ["x"])]).write
        (⟨0x7ff0000000000000⟩, (1 : Nat), ())).run ⟨#[0x5b, 0x31], [.array 1], false⟩ =
          .error error last ∧ error.cause = SchemaError.number := by
  constructor
  · obtain ⟨succeeds, appends, _⟩ := Schema.encoding_composes.1
      (Schema.record [("k", .array .boolean)]) ([true, false], ())
      ⟨#[0x5b, 0x31], [.array 1, .object 1 false], false⟩ rfl
    obtain ⟨after, written⟩ := succeeds.mpr ⟨fun _ _ => trivial, trivial⟩
    obtain ⟨text, encoded, rfl, kinds⟩ := appends after written
    have same : (Schema.record [("k", .array .boolean)]).encode ([true, false], ()) =
        .ok (Utf8.encode "\x7b\"k\":[true,false]\x7d".toList) := by decide +kernel
    obtain rfl := Except.ok.inj (encoded.symm.trans same)
    exact ⟨_, written, rfl, kinds⟩
  · obtain ⟨succeeds, _, fails⟩ := Schema.encoding_composes.1
      (Schema.record [("a", .real), ("b", .enumeration ["x"])])
      (⟨0x7ff0000000000000⟩, (1 : Nat), ()) ⟨#[0x5b, 0x31], [.array 1], false⟩ rfl
    have textless : ¬(Schema.record [("a", .real), ("b", .enumeration ["x"])]).HasText
        (⟨0x7ff0000000000000⟩, (1 : Nat), ()) := by
      rintro ⟨finite, _⟩
      exact absurd (show Binary64.isFinite ⟨0x7ff0000000000000⟩ = true from finite) (by decide)
    cases run : ((Schema.record [("a", .real), ("b", .enumeration ["x"])]).write
        (⟨0x7ff0000000000000⟩, (1 : Nat), ())).run ⟨#[0x5b, 0x31], [.array 1], false⟩ with
    | ok _ after => exact absurd (succeeds.mp ⟨after, run⟩) textless
    | error error last =>
      obtain ⟨flaw, found, rfl⟩ := fails error last run
      obtain rfl : Flaw.notFinite ⟨0x7ff0000000000000⟩ = flaw := Option.some.inj found
      exact ⟨_, last, rfl, rfl⟩

end TypedJson
