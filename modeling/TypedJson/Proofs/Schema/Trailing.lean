import TypedJson.Proofs.Schema.Refinement

/-! Documents that more bytes follow. A value ends where it ends whatever comes after it, unless it
is a number that the next byte goes on with, so a document is read to the same value with more bytes
behind it. Whether they may stand there is only asked once the value is read, and the first of them
that is not whitespace is the one refused. -/
namespace TypedJson

open Grammar

namespace Reader

variable {before : Reader} {text rest : List UInt8}

/-- A value that whitespace ends, or a byte that no number goes on with. -/
theorem ends_of_apart (isSpace : Space text)
    (apart : ∀ byte, rest.head? = some byte → continuesNumber byte = false)
    {token : List UInt8} : Ends token (text ++ rest) := by
  cases text with
  | nil => exact fun number => endsNumber_of_not_continues number apart
  | cons first text =>
    apply ends_of_closes
    intro byte head
    obtain rfl := Option.some.inj head
    rw [closesEntry, isSpace first List.mem_cons_self]
    rfl

/-- Reading is not finished where nothing is open but more than whitespace is left. -/
theorem finish_trailing {options : Options} (strict : options.allowTrailing = false)
    (closed : before.depth = 0) (trails : ¬Space before.unread) :
    (finish options).run before = .error
      ⟨SyntaxError.trailingBytes, none,
        before.offset + (before.unread.takeWhile Ascii.isWhitespace).length⟩
      before.skipWhitespace := by
  obtain ⟨space, isSpace, passes, stops⟩ := skipWhitespace_passes before
  cases left : before.skipWhitespace.unread with
  | nil =>
    rw [passes.unread, left, List.append_nil] at trails
    exact absurd isSpace trails
  | cons byte rest =>
    have head : before.skipWhitespace.unread.head? = some byte := congrArg List.head? left
    rw [finish, run_bind_of_ok run_get]
    simp only [closed, strict, ne_eq, not_true_eq_false, if_false, Bool.false_eq_true]
    rw [run_bind_of_ok (peekToken_complete isSpace passes head (stops byte head))]
    rfl

end Reader

open Reader

namespace Schema

variable {schema : Schema} {target value : schema.Value} {limit : Nat}
  {document more : List UInt8}

/-- A document that is decoded is read as far with more bytes behind it: all but whitespace at its
end is passed, and the value is the same. -/
theorem read_followed (decoded : schema.decodeInto ⟨limit, false⟩ target document = .ok value)
    (apart : ∀ byte, more.head? = some byte → continuesNumber byte = false)
    (target' : schema.Value) :
    ∃ front back after, document = front ++ back ∧ Space back ∧
      Passes (ofBytes (document ++ more)) front after ∧ after.unread = back ++ more ∧
      (schema.readInto limit target').run (ofBytes (document ++ more)) = .ok value after := by
  obtain ⟨space, text, back, isSpace, spelled, rfl, _, trailing⟩ := spelled_of_decodeInto decoded
  have isSpace' : Space back := trailing rfl
  have passes : Passes (ofBytes (space ++ text ++ back ++ more)) (space ++ text)
      ⟨back ++ more, 0 + (space ++ text).length, 0⟩ :=
    ⟨List.append_assoc .., rfl, rfl⟩
  refine ⟨space ++ text, back, _, rfl, isSpace', passes, rfl, ?_⟩
  exact schema.readInto_complete limit 0 target' rfl
    ⟨space, text, isSpace, spelled, passes, ends_of_apart isSpace' apart⟩

theorem decodeInto_run {options : Reader.Options} {after : Reader}
    (read : (schema.readInto options.depthLimit target).run (ofBytes document) = .ok value after) :
    schema.decodeInto options target document =
      match (finish options).run after with
      | .ok _ _ => .ok value
      | .error error _ => .error error := by
  simp only [decodeInto, run_bind_of_ok read, EStateM.run_bind]
  cases (finish options).run after <;> rfl

/-- A document that is decoded where no bytes may follow it is decoded to the same value with bytes
behind it that do not go on with a number, if more bytes may follow or they are whitespace. Otherwise
it is refused for them, at the first that is not whitespace. -/
theorem decodes_followed (decoded : schema.decodeInto ⟨limit, false⟩ target document = .ok value)
    (apart : ∀ byte, more.head? = some byte → continuesNumber byte = false)
    (target' : schema.Value) :
    schema.decodeInto ⟨limit, true⟩ target' (document ++ more) = .ok value ∧
    (Space more → schema.decodeInto ⟨limit, false⟩ target' (document ++ more) = .ok value) ∧
    (¬Space more → schema.decodeInto ⟨limit, false⟩ target' (document ++ more) = .error
      ⟨SyntaxError.trailingBytes, none,
        document.length + (more.takeWhile Ascii.isWhitespace).length⟩) := by
  obtain ⟨front, back, after, rfl, isSpace, passes, left, read⟩ :=
    read_followed decoded apart target'
  have closed : after.depth = 0 := passes.depth
  refine ⟨?_, ?_, ?_⟩
  · have finished : (finish ⟨limit, true⟩).run after = .ok () after := by
      rw [finish, run_bind_of_ok run_get]
      simp only [closed, ne_eq, not_true_eq_false, if_false, if_true]
      rfl
    rw [decodeInto_run read, finished]
  · intro isSpace'
    have whole : Passes after (back ++ more) ⟨[], _, after.depth⟩ :=
      ⟨left.trans (List.append_nil _).symm, rfl, rfl⟩
    obtain ⟨last, finished⟩ : ∃ last, (finish ⟨limit, false⟩).run after = .ok () last :=
      finish_of_space closed (isSpace.append isSpace') whole rfl
    rw [decodeInto_run read, finished]
  · intro trails
    have trails' : ¬Space after.unread := by
      rw [left]
      exact fun all => trails fun byte member => all byte (List.mem_append_right _ member)
    have offset : after.offset = front.length := passes.offset.trans (Nat.zero_add _)
    rw [decodeInto_run read, finish_trailing rfl closed trails', left, offset,
      List.takeWhile_append_of_pos isSpace, List.length_append, List.length_append, Nat.add_assoc]

/-- After the number `12` a line feed may stand, and ` -3` may where more bytes may follow, but not
otherwise: its sign is refused. -/
theorem decodes_followed_number :
    (Schema.integer .uint8).decodeInto ⟨1, false⟩ .zero [0x31, 0x32] =
      .ok ⟨12, by decide, by decide⟩ ∧
    (Schema.integer .uint8).decodeInto ⟨1, true⟩ .zero [0x31, 0x32, 0x20, 0x2d, 0x33] =
      .ok ⟨12, by decide, by decide⟩ ∧
    (Schema.integer .uint8).decodeInto ⟨1, false⟩ .zero [0x31, 0x32, 0x0a] =
      .ok ⟨12, by decide, by decide⟩ ∧
    (Schema.integer .uint8).decodeInto ⟨1, false⟩ .zero [0x31, 0x32, 0x20, 0x2d, 0x33] =
      .error ⟨SyntaxError.trailingBytes, none, 3⟩ := by
  have decoded : (Schema.integer .uint8).decodeInto ⟨1, false⟩ .zero [0x31, 0x32] =
    .ok ⟨12, by decide, by decide⟩ := rfl
  have apart (byte : UInt8) (head : [0x20, 0x2d, 0x33].head? = some byte) :
      continuesNumber byte = false := Option.some.inj head ▸ rfl
  have apart' (byte : UInt8) (head : [0x0a].head? = some byte) :
      continuesNumber byte = false := Option.some.inj head ▸ rfl
  obtain ⟨allowed, _, refused⟩ := decodes_followed decoded apart .zero
  obtain ⟨_, spaced, _⟩ := decodes_followed decoded apart' .zero
  have feed : Space [0x0a] := List.forall_mem_singleton.mpr rfl
  have number : ¬Space [0x20, 0x2d, 0x33] := fun space => nomatch space 0x2d (by simp)
  exact ⟨decoded, allowed, spaced feed, refused number⟩

end Schema

end TypedJson
