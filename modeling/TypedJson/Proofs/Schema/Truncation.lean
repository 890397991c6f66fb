import Mathlib.Data.List.DropRight
import TypedJson.Proofs.Reader.Unambiguous
import TypedJson.Proofs.Schema.Refinement

/-! Documents that are cut short. A value that is not a number shows by itself where it ends, so
what is read at the beginning of a document is the same whatever follows. If a part of the document
could be decoded, it would hold the whole value already, and only whitespace would be missing. -/
namespace TypedJson

open Grammar Reader

variable {schema : Schema} {levels : Nat} {value : schema.Value} {text : List UInt8}

/-- Whether the values of a schema are numbers, whose texts may go on. -/
def Schema.isNumeric : Schema → Bool
  | .integer _ | .real => true
  | _ => false

theorem Schema.Spells.begins (spelled : schema.Spells levels value text)
    (delimited : schema.isNumeric = false) :
    ∃ byte, text.head? = some byte ∧ Ascii.startsNumber byte = false := by
  cases schema with
  | boolean =>
    subst spelled
    cases value
    · exact ⟨Ascii.lowerF, rfl, rfl⟩
    · exact ⟨Ascii.lowerT, rfl, rfl⟩
  | integer | real => contradiction
  | string => exact ⟨Ascii.quote, StringToken.head? spelled, rfl⟩
  | binary | enumeration =>
    obtain ⟨_, token, _⟩ := spelled
    exact ⟨Ascii.quote, token.head?, rfl⟩
  | array =>
    obtain ⟨_, _, _, _, rfl, _⟩ := spelled
    exact ⟨Ascii.openBracket, rfl, rfl⟩
  | object =>
    obtain ⟨_, _, _, _, rfl, _⟩ := spelled
    exact ⟨Ascii.openBrace, rfl, rfl⟩

theorem Schema.Spells.ends {rest : List UInt8} (spelled : schema.Spells levels value text)
    (delimited : schema.isNumeric = false) : Ends text rest := by
  obtain ⟨byte, head, other⟩ := spelled.begins delimited
  exact ends_of_head byte head other

theorem length_rdropWhile_append_le {front back : List UInt8} (space : Space back) :
    ((front ++ back).rdropWhile Ascii.isWhitespace).length ≤ front.length := by
  rw [List.rdropWhile, List.reverse_append, List.length_reverse,
    List.dropWhile_append_of_pos fun byte member => space byte (List.mem_reverse.mp member)]
  exact (List.dropWhile_suffix _).length_le.trans_eq List.length_reverse

/-- What is decoded from the beginning of a document is missing nothing but whitespace. -/
theorem Schema.space_of_decodeInto {options options' : Options}
    {target target' value' : schema.Value} {front back : List UInt8}
    (delimited : schema.isNumeric = false)
    (strict : options.allowTrailing = false)
    (decoded : schema.decodeInto options target (front ++ back) = .ok value)
    (decoded' : schema.decodeInto options' target' front = .ok value') : Space back := by
  obtain ⟨space, text, rest, isSpace, spelled, whole, ends, trailing⟩ :=
    spelled_of_decodeInto decoded
  obtain ⟨space', text', rest', isSpace', spelled', rfl, _, _⟩ := spelled_of_decodeInto decoded'
  have passes : Passes (ofBytes (space' ++ text' ++ rest' ++ back)) (space ++ text) ⟨rest, _, 0⟩ :=
    ⟨whole, rfl, rfl⟩
  have passes' : Passes (ofBytes (space' ++ text' ++ rest' ++ back)) (space' ++ text')
      ⟨rest' ++ back, _, 0⟩ :=
    ⟨List.append_assoc .., rfl, rfl⟩
  have isValue : IsValue text := ⟨_, Schema.Spells.within schema value text spelled⟩
  have isValue' : IsValue text' := ⟨_, Schema.Spells.within schema value' text' spelled'⟩
  obtain ⟨_, same⟩ := value_unique isSpace isValue passes ends isSpace' isValue' passes'
    (spelled'.ends delimited)
  have left : rest = rest' ++ back := congrArg Reader.unread same
  intro byte member
  exact trailing strict byte (left ▸ List.mem_append_right rest' member)

/-- A document of a schema other than a number is not decoded once a part of its end, more than
whitespace, is missing, whatever the limit and whether or not more bytes may follow. -/
theorem Schema.refuses_truncated {options : Options} {target : schema.Value}
    {document front : List UInt8} (delimited : schema.isNumeric = false)
    (strict : options.allowTrailing = false)
    (decoded : schema.decodeInto options target document = .ok value)
    (isPrefix : front <+: document)
    (short : front.length < (document.rdropWhile Ascii.isWhitespace).length)
    (options' : Options) (target' : schema.Value) :
    ∃ error, schema.decodeInto options' target' front = .error error := by
  cases decoded' : schema.decodeInto options' target' front with
  | error error => exact ⟨error, rfl⟩
  | ok value' =>
    obtain ⟨back, rfl⟩ := isPrefix
    have space := space_of_decodeInto delimited strict decoded decoded'
    exact absurd short (Nat.not_lt.mpr (length_rdropWhile_append_le space))

/-- The list `[7,12] ` is decoded; without its bracket and what follows, it is not, even where more
bytes may follow. -/
theorem Schema.refuses_truncated_list :
    (Schema.array (.integer .uint8)).decodeInto ⟨2, false⟩ []
      [0x5b, 0x37, 0x2c, 0x31, 0x32, 0x5d, 0x20] =
        .ok [⟨7, by decide, by decide⟩, ⟨12, by decide, by decide⟩] ∧
    ∃ error, (Schema.array (.integer .uint8)).decodeInto ⟨100, true⟩ []
      [0x5b, 0x37, 0x2c, 0x31, 0x32] = .error error := by
  have decoded : (Schema.array (.integer .uint8)).decodeInto ⟨2, false⟩ []
      [0x5b, 0x37, 0x2c, 0x31, 0x32, 0x5d, 0x20] =
        .ok [⟨7, by decide, by decide⟩, ⟨12, by decide, by decide⟩] := rfl
  exact ⟨decoded, Schema.refuses_truncated rfl rfl decoded ⟨[0x5d, 0x20], rfl⟩ (by decide)
    ⟨100, true⟩ []⟩

end TypedJson
