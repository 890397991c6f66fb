import TypedJson.Proofs.Binary64.Text
import TypedJson.Proofs.Grammar.Quoted
import TypedJson.Proofs.Writer.Tree

/-! The minified text of a value is a document of the grammar, nested as deep as the value. -/
namespace TypedJson.Tree
open Grammar

theorem leaf_scalar (value : Leaf) : Scalar value.text := by
  cases value with
  | boolean value =>
    cases value
    · exact .false
    · exact .true
  | integer value => exact .number (Numeral.number_ofInt value)
  | real value => exact .number value.number_text
  | string value => exact .string (Escape.quoted_token value)
  | binary bytes => exact .string (Hex.token_encode bytes).1

theorem separated_cons (first : List UInt8) (rest : List (List UInt8)) :
    separated (first :: rest) = first ++ rest.flatMap (Ascii.comma :: ·) := by
  induction rest generalizing first with
  | nil => rw [separated, List.intercalate_singleton, List.flatMap_nil, List.append_nil]
  | cons second rest ih =>
    rw [separated, List.intercalate_cons_cons, ← separated, ih, List.flatMap_cons]
    simp only [List.append_assoc, List.cons_append, List.nil_append]

theorem elements_separated (texts : List (List UInt8)) :
    Elements true texts (separated texts ++ [Ascii.closeBracket]) := by
  have following : ∀ texts, Elements false texts
      (texts.flatMap (Ascii.comma :: ·) ++ [Ascii.closeBracket]) := by
    intro texts
    induction texts with
    | nil => exact .close .nil
    | cons text texts ih =>
      rw [List.flatMap_cons, List.append_assoc]
      exact .cons (.next .nil .nil) ih
  cases texts with
  | nil => exact .close .nil
  | cons first rest =>
    rw [separated_cons, List.append_assoc]
    exact .cons (.first .nil) (following rest)

theorem members_separated (members : List (String × List UInt8)) :
    Members true members
      (separated (members.map fun member => named member.1 member.2) ++ [Ascii.closeBrace]) := by
  have heading {first separator} (name : String) (separates : Separator first separator) :
      Heading first name (separator ++ Escape.quoted name.toList ++ [] ++ [Ascii.colon]) :=
    .mk separates (Escape.quoted_token name) .nil
  have following : ∀ members, Members false members
      ((members.map fun member => named member.1 member.2).flatMap (Ascii.comma :: ·) ++
        [Ascii.closeBrace]) := by
    intro members
    induction members with
    | nil => exact .close .nil
    | cons member members ih =>
      have whole : Members false (member :: members) _ :=
        .cons (heading member.1 (.next .nil .nil)) .nil ih
      simpa [named] using whole
  cases members with
  | nil => exact .close .nil
  | cons member members =>
    have whole : Members true (member :: members) _ :=
      .cons (heading member.1 (.first .nil)) .nil (following members)
    rw [List.map_cons, separated_cons]
    simpa [named] using whole

mutual
/-- The text of a value nests its containers as the value does. -/
theorem render_within : (tree : Tree) → (levels : Nat) → tree.nesting ≤ levels →
    ValueWithin levels tree.render
  | .leaf value, levels, _ => scalar_within (leaf_scalar value) levels
  | .array elements, levels, bound => by
    obtain ⟨levels, rfl⟩ : ∃ n, levels = n + 1 := ⟨levels - 1, by rw [nesting] at bound; omega⟩
    exact .array (elements_separated _)
      (renderAll_within elements levels (Nat.le_of_succ_le_succ bound))
  | .object members, levels, bound => by
    obtain ⟨levels, rfl⟩ : ∃ n, levels = n + 1 := ⟨levels - 1, by rw [nesting] at bound; omega⟩
    have valids := members_separated (members.map fun member => (member.1, member.2.render))
    rw [List.map_map] at valids
    rw [render, renderMembers_eq]
    exact .object valids (renderMembers_within members levels (Nat.le_of_succ_le_succ bound))

theorem renderAll_within : (elements : List Tree) → (levels : Nat) → nestingAll elements ≤ levels →
    ∀ text ∈ renderAll elements, ValueWithin levels text
  | [], _, _ => nofun
  | tree :: rest, levels, bound => by
    obtain ⟨first, bound⟩ := Nat.max_le.mp bound
    exact List.forall_mem_cons.mpr
      ⟨render_within tree levels first, renderAll_within rest levels bound⟩

theorem renderMembers_within : (members : List (String × Tree)) → (levels : Nat) →
    nestingMembers members ≤ levels →
      ∀ member ∈ members.map fun member => (member.1, member.2.render), ValueWithin levels member.2
  | [], _, _ => nofun
  | (_, tree) :: rest, levels, bound => by
    obtain ⟨first, bound⟩ := Nat.max_le.mp bound
    exact List.forall_mem_cons.mpr
      ⟨render_within tree levels first, renderMembers_within rest levels bound⟩
end

theorem render_document (tree : Tree) : Document tree.nesting tree.render := by
  have document := Document.mk .nil (render_within tree tree.nesting (Nat.le_refl _)) .nil
  rwa [List.nil_append, List.append_nil] at document

end TypedJson.Tree
