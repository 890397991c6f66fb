import TypedJson.Proofs.Grammar.Numeral

/-! The decimal text of an integer is an integral number of the grammar, and its value is the
integer. -/
namespace TypedJson.Numeral
open Grammar

variable {char : Char} {chars : List Char} {n : Nat}

theorem toNat_toUInt8 (digit : char.isDigit = true) : char.toUInt8.toNat = char.toNat := by
  have bound : char.toNat ≤ 57 := by
    simp only [Char.isDigit, Bool.and_eq_true, decide_eq_true_eq] at digit
    exact digit.2
  change char.toNat % 256 = char.toNat
  omega

theorem isDigit_toUInt8 (digit : char.isDigit = true) : Ascii.isDigit char.toUInt8 = true := by
  have same := toNat_toUInt8 digit
  simp only [Char.isDigit, Bool.and_eq_true, decide_eq_true_eq] at digit
  simp only [Ascii.isDigit, Bool.and_eq_true, decide_eq_true_eq, UInt8.le_iff_toNat_le, same]
  exact digit

theorem digitsValue_map (digits : ∀ char ∈ chars, char.isDigit = true) (value : Nat) :
    (chars.map Char.toUInt8).foldl (fun value digit => 10 * value + Ascii.digitValue digit) value =
      Nat.ofDigitChars 10 chars value := by
  induction chars generalizing value with
  | nil => rfl
  | cons char chars ih =>
    obtain ⟨digit, digits⟩ := List.forall_mem_cons.mp digits
    rw [List.map_cons, List.foldl_cons, ih digits, Nat.ofDigitChars_cons, Ascii.digitValue,
      toNat_toUInt8 digit]
    rfl

theorem toDigits_isDigit : ∀ char ∈ Nat.toDigits 10 n, char.isDigit = true :=
  fun _ member => Nat.isDigit_of_mem_toDigits (by decide) (by decide) member

theorem digitsValue_ofNat (n : Nat) : digitsValue (ofNat n) = n := by
  rw [digitsValue, ofNat, digitsValue_map toDigits_isDigit, Nat.ofDigitChars_ten_toDigits]

theorem ofNat_isDigit : ∀ byte ∈ ofNat n, Ascii.isDigit byte = true := by
  intro byte member
  obtain ⟨char, ofDigits, rfl⟩ := List.mem_map.mp member
  exact isDigit_toUInt8 (toDigits_isDigit char ofDigits)

theorem ofNat_ne_nil (n : Nat) : ofNat n ≠ [] := by
  rw [ofNat, ne_eq, List.map_eq_nil_iff]
  exact Nat.toDigits_ne_nil

/-- Only zero has a leading zero. -/
theorem toDigits_head (positive : 0 < n) : ∃ first rest,
    Nat.toDigits 10 n = first :: rest ∧ Ascii.isNonzeroDigit first.toUInt8 = true := by
  induction n using Nat.base_induction 10 (by decide) with
  | single n small =>
    refine ⟨n.digitChar, [], Nat.toDigits_of_lt_base small, ?_⟩
    revert positive small
    decide +revert
  | digit n k digit pos ih =>
    obtain ⟨first, rest, same, nonzero⟩ := ih pos
    refine ⟨first, rest ++ Nat.toDigits 10 k, ?_, nonzero⟩
    rw [← Nat.toDigits_append_toDigits (by decide) pos digit, same, List.cons_append]

theorem whole_ofNat (n : Nat) : Whole (ofNat n) := by
  cases n with
  | zero => exact .zero
  | succ n =>
    obtain ⟨first, rest, same, nonzero⟩ := toDigits_head (Nat.succ_pos n)
    have digits : ∀ byte ∈ ofNat (n + 1), Ascii.isDigit byte = true := ofNat_isDigit
    rw [ofNat, same, List.map_cons] at digits ⊢
    exact .digits nonzero (List.forall_mem_cons.mp digits).2

theorem number_ofInt (n : Int) : Number (ofInt n) := by
  rw [ofInt]
  split
  case isTrue =>
    have number := Number.mk (.mk .minus (whole_ofNat n.natAbs) .none) .none
    rwa [List.append_nil, List.append_nil] at number
  case isFalse =>
    have number := Number.mk (.mk .none (whole_ofNat n.natAbs) .none) .none
    rwa [List.append_nil, List.append_nil] at number

theorem isIntegral_ofInt (n : Int) : Grammar.isIntegral (ofInt n) = true := by
  have digits : Grammar.isIntegral (ofNat n.natAbs) = true := by
    apply List.all_eq_true.mpr
    intro byte member
    rw [ofNat_isDigit byte member, Bool.or_true]
  rw [ofInt]
  split
  case isTrue => exact digits
  case isFalse => exact digits

theorem toInt_ofInt (n : Int) (integral : Bool) : toInt ⟨ofInt n, integral⟩ = n := by
  have unsigned : (⟨ofNat n.natAbs, integral⟩ : Numeral).isNegative = false := by
    obtain ⟨first, rest, same⟩ := List.exists_cons_of_ne_nil (ofNat_ne_nil n.natAbs)
    have digit : Ascii.isDigit first = true :=
      ofNat_isDigit first (by rw [same]; exact List.mem_cons_self)
    rw [isNegative, same]
    apply beq_eq_false_iff_ne.mpr
    intro minus
    cases Option.some.inj minus
    contradiction
  rw [ofInt]
  split
  case isTrue negative =>
    change -(digitsValue (ofNat n.natAbs) : Int) = n
    rw [digitsValue_ofNat]
    omega
  case isFalse =>
    simp only [toInt, Numeral.unsigned, unsigned, Bool.false_eq_true, if_false, digitsValue_ofNat]
    omega

end TypedJson.Numeral
