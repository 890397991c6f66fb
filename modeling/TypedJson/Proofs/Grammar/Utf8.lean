import TypedJson.Utf8

/-! Decoding UTF-8 succeeds on exactly the encodings of texts, and gives the text back. -/
namespace TypedJson.Utf8

variable {bytes : List UInt8} {char : Char} {chars : List Char}

theorem first?_append (char : Char) (rest : List UInt8) :
    first? (String.utf8EncodeChar char ++ rest) = some char := by
  have short : (String.utf8EncodeChar char).length ≤ 4 := by
    rw [String.length_utf8EncodeChar]
    exact char.utf8Size_le_four
  rw [first?, List.take_append, List.take_of_length_le short, List.toByteArray_append]
  exact ByteArray.utf8DecodeChar?_utf8EncodeChar_append

theorem exists_of_first? (found : first? bytes = some char) :
    ∃ rest, bytes = String.utf8EncodeChar char ++ rest := by
  obtain ⟨more, same⟩ := ByteArray.exists_of_utf8DecodeChar?_eq_some found
  have lists := congrArg (·.data.toList) same
  simp only [List.toList_data_toByteArray, ByteArray.toList_data_append] at lists
  refine ⟨more.data.toList ++ bytes.drop 4, ?_⟩
  rw [← List.append_assoc, ← lists, List.take_append_drop]

/-- One character more in front: what decoding does is seen one character at a time. -/
theorem decode_append (char : Char) (rest : List UInt8) :
    decode (String.utf8EncodeChar char ++ rest) =
      match decode rest with
      | .ok chars => .ok (char :: chars)
      | .error valid => .error (char.utf8Size + valid) := by
  have size := String.length_utf8EncodeChar char
  have positive := char.utf8Size_pos
  cases encoded : String.utf8EncodeChar char with
  | nil => simp [encoded] at size; omega
  | cons first more =>
    have found := first?_append char rest
    have dropped : (more ++ rest).drop (char.utf8Size - 1) = rest := by
      rw [encoded, List.length_cons] at size
      exact List.drop_left' (by omega)
    rw [encoded, List.cons_append] at found
    rw [List.cons_append, decode, found]
    cases read : decode rest <;> simp only [dropped, read]

theorem decode_encode (chars : List Char) : decode (encode chars) = .ok chars := by
  induction chars with
  | nil => rw [encode, List.flatMap_nil, decode]
  | cons char chars ih =>
    rw [encode, List.flatMap_cons, decode_append]
    rw [encode] at ih
    rw [ih]

theorem decode_sound (decoded : decode bytes = .ok chars) : bytes = encode chars := by
  fun_induction decode bytes generalizing chars with
  | case1 => cases decoded; rfl
  | case2 => contradiction
  | case3 byte rest char found following read ih =>
    cases decoded
    obtain ⟨more, same⟩ := exists_of_first? found
    have dropped : rest.drop (char.utf8Size - 1) = more := by
      have := congrArg (List.drop char.utf8Size) same
      rwa [List.drop_left' (String.length_utf8EncodeChar char),
        show char.utf8Size = char.utf8Size - 1 + 1 by have := char.utf8Size_pos; omega,
        List.drop_succ_cons] at this
    rw [same, ← dropped, ih read]
    rfl
  | case4 => contradiction

theorem decode_error {valid : Nat} (failed : decode bytes = .error valid) :
    valid ≤ bytes.length := by
  fun_induction decode bytes generalizing valid with
  | case1 => contradiction
  | case2 => exact Except.error.inj failed ▸ Nat.zero_le _
  | case3 => contradiction
  | case4 byte rest char found valid read ih =>
    obtain ⟨more, same⟩ := exists_of_first? found
    have length := congrArg List.length same
    rw [List.length_append, String.length_utf8EncodeChar] at length
    have bound := ih read
    rw [List.length_drop] at bound
    rw [← Except.error.inj failed]
    rw [List.length_cons] at length ⊢
    omega

@[simp] theorem encode_nil : encode [] = [] := rfl

theorem encode_cons (char : Char) (chars : List Char) :
    encode (char :: chars) = String.utf8EncodeChar char ++ encode chars := rfl

theorem encode_append (first second : List Char) :
    encode (first ++ second) = encode first ++ encode second := List.flatMap_append

/-- An ASCII character is one byte; every byte of any other is above ASCII. -/
theorem encodeChar_cases (char : Char) :
    (char.toNat < 0x80 ∧ String.utf8EncodeChar char = [UInt8.ofNat char.toNat]) ∨
      (0x80 ≤ char.toNat ∧ ∀ byte ∈ String.utf8EncodeChar char, 0x80 ≤ byte.toNat) := by
  by_cases ascii : char.toNat < 0x80
  · refine .inl ⟨ascii, ?_⟩
    rw [String.utf8EncodeChar, if_pos (show char.val.toNat ≤ 0x7f by exact Nat.le_of_lt_succ ascii)]
    rfl
  · refine .inr ⟨Nat.le_of_not_lt ascii, fun byte member => ?_⟩
    have large : ¬char.val.toNat ≤ 0x7f := fun small => ascii (Nat.lt_succ_of_le small)
    simp only [String.utf8EncodeChar, if_neg large] at member
    split at member
    · simp only [List.mem_cons, List.not_mem_nil, or_false] at member
      rcases member with rfl | rfl <;> simp only [UInt8.toNat_ofNat'] <;> omega
    · split at member
      · simp only [List.mem_cons, List.not_mem_nil, or_false] at member
        rcases member with rfl | rfl | rfl <;> simp only [UInt8.toNat_ofNat'] <;> omega
      · simp only [List.mem_cons, List.not_mem_nil, or_false] at member
        rcases member with rfl | rfl | rfl | rfl <;> simp only [UInt8.toNat_ofNat'] <;> omega

theorem encodeChar_lt (char : Char) : ∀ byte ∈ String.utf8EncodeChar char, byte.toNat < 0xf8 := by
  intro byte member
  simp only [String.utf8EncodeChar] at member
  split at member
  · rw [List.mem_singleton.mp member, UInt8.toNat_ofNat']
    omega
  · split at member
    · simp only [List.mem_cons, List.not_mem_nil, or_false] at member
      rcases member with rfl | rfl <;> simp only [UInt8.toNat_ofNat'] <;> omega
    · split at member
      · simp only [List.mem_cons, List.not_mem_nil, or_false] at member
        rcases member with rfl | rfl | rfl <;> simp only [UInt8.toNat_ofNat'] <;> omega
      · simp only [List.mem_cons, List.not_mem_nil, or_false] at member
        rcases member with rfl | rfl | rfl | rfl <;> simp only [UInt8.toNat_ofNat'] <;> omega

end TypedJson.Utf8
