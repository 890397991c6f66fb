import Mathlib.Data.List.Forall2
import TypedJson.Codec
import TypedJson.Proofs.Writer.Simulation

/-! What a value of a schema is written as. Every value has its tree, unless a number in it is not
finite or a place of an enumeration has no name, and writing the value adds that tree to any draft
that awaits a value. -/
namespace TypedJson

mutual
/-- The tree of a value. -/
def Schema.tree? : (schema : Schema) → schema.Value → Option Tree
  | .boolean, value => some (.leaf (.boolean value))
  | .integer _, value => some (.leaf (.integer value.value))
  | .real, value => if finite : value.isFinite = true then some (.leaf (.real value finite)) else none
  | .string, value => some (.leaf (.string value))
  | .binary _, value => some (.leaf (.binary value.toList))
  | .enumeration names, index => names[index]?.map fun name => .leaf (.string name)
  | .array element, values => (values.mapM element.tree?).map .array
  | .object fields, record => (fields.trees? record).map .object

def Fields.trees? : (fields : Fields) → fields.Record → Option (List (String × Tree))
  | .nil, _ => some []
  | .cons name schema rest, (value, others) =>
    (schema.tree? value).bind fun tree => (rest.trees? others).map ((name, tree) :: ·)
end

mutual
/-- Whether a value has a text: its numbers are finite, and its enumeration places have names. -/
def Schema.HasText : (schema : Schema) → schema.Value → Prop
  | .real, value => value.isFinite = true
  | .enumeration names, index => index < names.length
  | .array element, values => ∀ value ∈ values, element.HasText value
  | .object fields, record => fields.HaveText record
  | _, _ => True

def Fields.HaveText : (fields : Fields) → fields.Record → Prop
  | .nil, _ => True
  | .cons _ schema rest, (value, others) => schema.HasText value ∧ rest.HaveText others
end

mutual
/-- The number of containers open at once in a value. -/
def Schema.nesting : (schema : Schema) → schema.Value → Nat
  | .array element, values => (values.map element.nesting).foldr max 0 + 1
  | .object fields, record => fields.nesting record + 1
  | _, _ => 0

def Fields.nesting : (fields : Fields) → fields.Record → Nat
  | .nil, _ => 0
  | .cons _ schema rest, (value, others) => max (schema.nesting value) (rest.nesting others)
end

mutual
/-- The number of containers that can be open at once in a value of a schema. -/
def Schema.height : Schema → Nat
  | .array element => element.height + 1
  | .object fields => fields.height + 1
  | _ => 0

def Fields.height : Fields → Nat
  | .nil => 0
  | .cons _ schema rest => max schema.height rest.height
end

variable {α : Type} {values : List α} {trees : List Tree} {tree : Tree} {frames : List Frame}
  {members : List (String × Tree)} {tree? : α → Option Tree} {nesting : α → Nat}

theorem forall₂_of_mapM (mapped : values.mapM tree? = some trees) :
    List.Forall₂ (fun value tree => tree? value = some tree) values trees := by
  induction values generalizing trees with
  | nil =>
    obtain rfl : [] = trees := Option.some.inj mapped
    exact .nil
  | cons value values ih =>
    rw [List.mapM_cons] at mapped
    obtain ⟨tree, first, mapped⟩ := Option.bind_eq_some_iff.mp mapped
    obtain ⟨others, following, same⟩ := Option.bind_eq_some_iff.mp mapped
    obtain rfl := Option.some.inj same
    exact .cons first (ih following)

theorem mapM_of_forall (each : ∀ value ∈ values, ∃ tree, tree? value = some tree ∧
    tree.nesting = nesting value) : ∃ trees, values.mapM tree? = some trees ∧
      Tree.nestingAll trees = (values.map nesting).foldr max 0 := by
  induction values with
  | nil => exact ⟨[], rfl, rfl⟩
  | cons value values ih =>
    obtain ⟨⟨tree, first, depth⟩, each⟩ := List.forall_mem_cons.mp each
    obtain ⟨trees, following, depths⟩ := ih each
    refine ⟨tree :: trees, ?_, ?_⟩
    · rw [List.mapM_cons, first, following]
      rfl
    · rw [Tree.nestingAll, depth, depths]
      rfl

theorem foldr_max_le {levels : Nat} (each : ∀ value ∈ values, nesting value ≤ levels) :
    (values.map nesting).foldr max 0 ≤ levels := by
  induction values with
  | nil => exact Nat.zero_le levels
  | cons value values ih =>
    obtain ⟨fits, each⟩ := List.forall_mem_cons.mp each
    exact Nat.max_le.mpr ⟨fits, ih each⟩

mutual
theorem Schema.nesting_le_height : ∀ (schema : Schema) (value : schema.Value),
    schema.nesting value ≤ schema.height
  | .boolean, _ | .integer _, _ | .real, _ | .string, _ | .binary _, _ | .enumeration _, _ =>
    Nat.le_refl 0
  | .array element, _ =>
    Nat.succ_le_succ (foldr_max_le fun value _ => element.nesting_le_height value)
  | .object fields, record => Nat.succ_le_succ (fields.nesting_le_height record)

theorem Fields.nesting_le_height : ∀ (fields : Fields) (record : fields.Record),
    fields.nesting record ≤ fields.height
  | .nil, _ => Nat.le_refl 0
  | .cons _ schema rest, (value, others) => by
    have first := schema.nesting_le_height value
    have following := rest.nesting_le_height others
    simp only [Fields.nesting, Fields.height]
    omega
end

mutual
/-- A value with a text has a tree, nested as deep as the value. -/
theorem Schema.exists_tree : ∀ (schema : Schema) (value : schema.Value), schema.HasText value →
    ∃ tree, schema.tree? value = some tree ∧ tree.nesting = schema.nesting value
  | .boolean, _, _ => ⟨_, rfl, rfl⟩
  | .integer _, _, _ => ⟨_, rfl, rfl⟩
  | .real, value, (finite : value.isFinite = true) => ⟨_, dif_pos finite, rfl⟩
  | .string, _, _ => ⟨_, rfl, rfl⟩
  | .binary _, _, _ => ⟨_, rfl, rfl⟩
  | .enumeration names, index, (bound : index < names.length) => by
    refine ⟨.leaf (.string names[index]), ?_, rfl⟩
    rw [Schema.tree?, List.getElem?_eq_getElem bound, Option.map_some]
  | .array element, values, valid => by
    obtain ⟨trees, mapped, depth⟩ := mapM_of_forall fun value member =>
      element.exists_tree value (valid value member)
    refine ⟨.array trees, ?_, congrArg (· + 1) depth⟩
    rw [Schema.tree?, mapped, Option.map_some]
  | .object fields, record, valid => by
    obtain ⟨members, found, depth⟩ := fields.exists_trees record valid
    refine ⟨.object members, ?_, congrArg (· + 1) depth⟩
    rw [Schema.tree?, found, Option.map_some]

theorem Fields.exists_trees : ∀ (fields : Fields) (record : fields.Record), fields.HaveText record →
    ∃ members, fields.trees? record = some members ∧
      Tree.nestingMembers members = fields.nesting record
  | .nil, _, _ => ⟨[], rfl, rfl⟩
  | .cons name schema rest, (value, others), ⟨valid, following⟩ => by
    obtain ⟨tree, found, depth⟩ := schema.exists_tree value valid
    obtain ⟨members, also, depths⟩ := rest.exists_trees others following
    refine ⟨(name, tree) :: members, ?_, ?_⟩
    · rw [Fields.trees?, found, also]
      rfl
    · rw [Tree.nestingMembers, depth, depths]
      rfl
end

namespace Writer
open Draft

theorem Writes.run {call : Write Unit} {event : Event} {draft next : Draft}
    (writes : Writes call event) (steps : draft.step event = some next) :
    call.run draft.writer = .ok () next.writer := by
  obtain ⟨_, same, run⟩ | ⟨refused, _⟩ := writes draft
  · rw [steps] at same
    rwa [← Option.some.inj same] at run
  · rw [steps] at refused
    contradiction

/-- Elements are written one after the other into the innermost array. -/
theorem forM_run {write : α → Write Unit} {outer : List Frame} {done : List Tree}
    (each : List.Forall₂ (fun value tree => ∀ frames,
      (write value).run (awaiting frames).writer = .ok () (put tree frames).writer) values trees) :
    (values.forM write).run (awaiting (.array done :: outer)).writer =
      .ok () (awaiting (.array (done ++ trees) :: outer)).writer := by
  induction each generalizing done with
  | nil => rw [List.append_nil]; rfl
  | @cons value tree values trees first following ih =>
    have whole : done ++ tree :: trees = done ++ [tree] ++ trees := by
      rw [List.append_assoc, List.singleton_append]
    change (write value >>= fun _ => values.forM write).run _ = _
    rw [EStateM.run_bind, first, whole]
    exact ih

end Writer

open Draft Writer

mutual
/-- Writing a value adds its tree to a draft that awaits a value. -/
theorem Schema.write_run : ∀ (schema : Schema) (value : schema.Value) (tree : Tree)
    (frames : List Frame), schema.tree? value = some tree →
      (schema.write value).run (awaiting frames).writer = .ok () (put tree frames).writer
  | .boolean, value, _, _, rfl => (writes_scalar (.boolean value)).run rfl
  | .integer _, value, _, _, rfl => (writes_scalar (.integer value.value)).run rfl
  | .real, value, tree, frames, found => by
    rw [Schema.tree?] at found
    split at found
    case isTrue finite =>
      obtain rfl := Option.some.inj found
      rw [Schema.write, Writer.real, if_pos finite]
      exact (writes_scalar (.real value finite)).run rfl
    case isFalse => contradiction
  | .string, value, _, _, rfl => (writes_scalar (.string value)).run rfl
  | .binary _, value, _, _, rfl => (writes_scalar (.binary value.toList)).run rfl
  | .enumeration names, index, tree, frames, found => by
    rw [Schema.tree?] at found
    obtain ⟨name, named, rfl⟩ := Option.map_eq_some_iff.mp found
    rw [Schema.write, Writer.enumeration, named]
    exact (writes_scalar (.string name)).run rfl
  | .array element, values, tree, frames, found => by
    rw [Schema.tree?] at found
    obtain ⟨trees, mapped, rfl⟩ := Option.map_eq_some_iff.mp found
    have each := (forall₂_of_mapM mapped).imp fun value tree found frames =>
      element.write_run value tree frames found
    have opens : openArray.run (awaiting frames).writer = .ok () _ := writes_openArray.run rfl
    rw [Schema.write, EStateM.run_bind, opens]
    change (values.forM element.write >>= fun _ => closeArray).run _ = _
    rw [EStateM.run_bind, forM_run each]
    exact writes_closeArray.run rfl
  | .object fields, record, tree, frames, found => by
    rw [Schema.tree?] at found
    obtain ⟨members, also, rfl⟩ := Option.map_eq_some_iff.mp found
    have opens : openObject.run (awaiting frames).writer = .ok () _ := writes_openObject.run rfl
    rw [Schema.write, EStateM.run_bind, opens]
    change (fields.write record >>= fun _ => closeObject).run _ = _
    rw [EStateM.run_bind, fields.write_run record members [] frames also]
    exact writes_closeObject.run rfl

theorem Fields.write_run : ∀ (fields : Fields) (record : fields.Record)
    (members done : List (String × Tree)) (outer : List Frame),
      fields.trees? record = some members →
        (fields.write record).run (between done outer).writer =
          .ok () (between (done ++ members) outer).writer
  | .nil, _, _, done, _, rfl => by rw [List.append_nil]; rfl
  | .cons name schema rest, (value, others), members, done, outer, found => by
    rw [Fields.trees?] at found
    obtain ⟨tree, first, found⟩ := Option.bind_eq_some_iff.mp found
    obtain ⟨following, also, rfl⟩ := Option.map_eq_some_iff.mp found
    have named : (key name).run (between done outer).writer = .ok () _ := (writes_key name).run rfl
    have whole : done ++ (name, tree) :: following = done ++ [(name, tree)] ++ following := by
      rw [List.append_assoc, List.singleton_append]
    rw [Fields.write, EStateM.run_bind, named]
    change (schema.write value >>= fun _ => rest.write others).run _ = _
    rw [EStateM.run_bind, schema.write_run value tree _ first, whole]
    exact rest.write_run others following (done ++ [(name, tree)]) outer also
end

/-- The document of a value is the minified text of its tree. -/
theorem Schema.encode_eq {schema : Schema} {value : schema.Value}
    (found : schema.tree? value = some tree) : schema.encode value = .ok tree.render := by
  have run := schema.write_run value tree [] found
  have taken : take.run (finished tree).writer = .ok tree.render .empty := rfl
  have start : (awaiting []).writer = .empty := rfl
  have whole : (schema.write value >>= fun _ => take).run .empty = .ok tree.render .empty := by
    rw [EStateM.run_bind, ← start, run]
    exact taken
  rw [encode]
  simp only [whole]

end TypedJson
