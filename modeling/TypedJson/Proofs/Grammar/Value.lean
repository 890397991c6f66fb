import TypedJson.Proofs.Grammar.Integer

/-! The value of a number from the parts of its text. -/
namespace TypedJson.Numeral
open Grammar

variable {signs whole fraction exponent digits rest : List UInt8} {integral : Bool}

theorem takeWhile_digits (digits : ∀ byte ∈ whole, Ascii.isDigit byte = true)
    (stops : ∀ byte, rest.head? = some byte → Ascii.isDigit byte = false) :
    (whole ++ rest).takeWhile Ascii.isDigit = whole ∧
      (whole ++ rest).dropWhile Ascii.isDigit = rest := by
  rw [List.takeWhile_append_of_pos digits, List.dropWhile_append_of_pos digits]
  cases rest with
  | nil => exact ⟨List.append_nil whole, rfl⟩
  | cons byte rest =>
    have stops : ¬Ascii.isDigit byte = true := by rw [stops byte rfl]; exact Bool.false_ne_true
    rw [List.takeWhile_cons_of_neg stops, List.dropWhile_cons_of_neg stops, List.append_nil]
    exact ⟨rfl, rfl⟩

theorem whole_isDigit (valid : Whole whole) : ∀ byte ∈ whole, Ascii.isDigit byte = true := by
  cases valid with
  | zero => exact List.forall_mem_singleton.mpr rfl
  | digits nonzero rest =>
    exact List.forall_mem_cons.mpr ⟨NumeralState.isDigit_of_isNonzeroDigit nonzero, rest⟩

theorem whole_head (valid : Whole whole) : (whole ++ rest).head? ≠ some Ascii.minus := by
  cases valid with
  | zero => exact fun minus => nomatch Option.some.inj minus
  | digits nonzero =>
    intro minus
    rw [Option.some.inj minus] at nonzero
    exact nomatch nonzero

/-- An exponent begins with neither a digit nor a point. -/
theorem exponent_head (valid : Exponent exponent) : ∀ byte, exponent.head? = some byte →
    Ascii.isDigit byte = false ∧ (byte == Ascii.point) = false := by
  cases valid with
  | none => exact fun _ head => nomatch head
  | some mark =>
    intro byte head
    cases Option.some.inj head
    rcases mark with rfl | rfl <;> exact ⟨rfl, rfl⟩

theorem unsigned_eq (sign : Sign signs) (valid : Whole whole) (rest : List UInt8)
    (integral : Bool) :
    isNegative ⟨signs ++ (whole ++ rest), integral⟩ = (signs.head? == some Ascii.minus) ∧
      unsigned ⟨signs ++ (whole ++ rest), integral⟩ = whole ++ rest := by
  cases sign with
  | none =>
    have positive : isNegative ⟨whole ++ rest, integral⟩ = false :=
      beq_eq_false_iff_ne.mpr (whole_head valid)
    rw [List.nil_append, unsigned, positive]
    exact ⟨rfl, rfl⟩
  | minus => exact ⟨rfl, rfl⟩

/-- Past its sign, an integral number has nothing but digits. -/
theorem unsigned_isDigit {text : List UInt8} (number : Number text)
    (whole : Grammar.isIntegral text = true) :
    ∀ byte ∈ unsigned ⟨text, integral⟩, Ascii.isDigit byte = true := by
  obtain ⟨⟨sign, valid, part⟩, mark⟩ := number
  have inside := List.all_eq_true.mp whole
  cases part with
  | some => exact absurd (inside Ascii.point (by simp)) (by decide)
  | none =>
    cases mark with
    | some mark =>
      have present := inside _ (List.mem_append_right _ List.mem_cons_self)
      rcases mark with rfl | rfl <;> contradiction
    | none =>
      rw [List.append_assoc, List.append_assoc, (unsigned_eq sign valid _ _).2, List.append_nil,
        List.append_nil]
      exact whole_isDigit valid

/-- The digits of whole part and fraction in one run, for the exponent lowered by the length of the
fraction. -/
theorem toDecimal_eq (sign : Sign signs) (valid : Whole whole) (part : Fraction fraction)
    (mark : Exponent exponent) :
    toDecimal ⟨signs ++ (whole ++ (fraction ++ exponent)), integral⟩ =
      { negative := signs.head? == some Ascii.minus
        coefficient := digitsValue (whole ++ fraction.tail)
        exponent := signedExponent exponent - fraction.tail.length } := by
  have head := exponent_head mark
  have stops : ∀ byte, (fraction ++ exponent).head? = some byte → Ascii.isDigit byte = false := by
    cases part with
    | none => exact fun byte first => (head byte first).1
    | some =>
      intro byte first
      cases Option.some.inj first
      rfl
  obtain ⟨taken, dropped⟩ := takeWhile_digits (whole_isDigit valid) stops
  obtain ⟨negative, unsigned⟩ := unsigned_eq sign valid (fraction ++ exponent) integral
  rw [toDecimal, negative, unsigned, taken, dropped]
  cases part with
  | none =>
    have absent : (exponent.head? == some Ascii.point) = false := by
      cases exponent with
      | nil => rfl
      | cons byte rest => exact (head byte rfl).2
    simp only [List.nil_append, absent, Bool.false_eq_true, if_false]
    rfl
  | @some digits run =>
    obtain ⟨taken, dropped⟩ := takeWhile_digits run.2 fun byte first => (head byte first).1
    have present : ((Ascii.point :: (digits ++ exponent)).head? == some Ascii.point) = true := rfl
    rw [List.cons_append]
    simp only [present, if_true, List.tail_cons, taken, dropped]

theorem map_toString (n : Int) : (toString n).toList.map Char.toUInt8 = ofInt n := by
  rw [Int.toString_eq_repr, Int.repr_eq_if, ofInt, ofNat]
  split
  case isTrue nonneg =>
    have same : n.toNat = n.natAbs := by omega
    rw [if_neg (by omega), Nat.toList_repr, same]
  case isFalse negative =>
    have same : (-n).toNat = n.natAbs := by omega
    rw [if_pos (by omega), String.toList_append, List.map_append, Nat.toList_repr, same]
    rfl

/-- Exponent digits count in full as long as they are few. -/
theorem exponentValue_eq (small : digitsValue digits < 65536) :
    exponentValue digits = digitsValue digits := by
  have step : ∀ (digits : List UInt8) (value : Nat),
      digits.foldl (fun value digit => 10 * value + Ascii.digitValue digit) value < 65536 →
        value < 65536 ∧ digits.foldl (fun value digit =>
          if value < 65536 then 10 * value + Ascii.digitValue digit else value) value =
            digits.foldl (fun value digit => 10 * value + Ascii.digitValue digit) value := by
    intro digits
    induction digits with
    | nil => exact fun value small => ⟨small, rfl⟩
    | cons digit digits ih =>
      intro value small
      obtain ⟨below, same⟩ := ih _ small
      have below : value < 65536 := by
        change 10 * value + Ascii.digitValue digit < 65536 at below
        omega
      refine ⟨below, ?_⟩
      rw [List.foldl_cons, if_pos below]
      exact same
  exact (step digits 0 small).2

theorem signedExponent_ofInt {n : Int} (small : n.natAbs < 65536) (mark : UInt8) :
    signedExponent (mark :: ofInt n) = n := by
  have value : exponentValue (ofNat n.natAbs) = n.natAbs := by
    rw [exponentValue_eq (by rwa [digitsValue_ofNat]), digitsValue_ofNat]
  rw [ofInt]
  split
  case isTrue negative =>
    change -(exponentValue (ofNat n.natAbs) : Int) = n
    rw [value]
    omega
  case isFalse =>
    obtain ⟨first, rest, same⟩ := List.exists_cons_of_ne_nil (ofNat_ne_nil n.natAbs)
    have digit : Ascii.isDigit first = true :=
      ofNat_isDigit first (by rw [same]; exact List.mem_cons_self)
    have minus : ¬(first == Ascii.minus) = true := by
      intro minus
      rw [beq_iff_eq.mp minus] at digit
      exact Bool.false_ne_true digit
    have plus : ¬(first == Ascii.plus) = true := by
      intro plus
      rw [beq_iff_eq.mp plus] at digit
      exact Bool.false_ne_true digit
    rw [same] at value ⊢
    rw [signedExponent, if_neg minus, if_neg plus, value]
    omega

theorem exponent_ofInt (n : Int) : Exponent (Ascii.lowerE :: ofInt n) := by
  have digits : Digits (ofNat n.natAbs) := ⟨ofNat_ne_nil n.natAbs, ofNat_isDigit⟩
  rw [ofInt]
  split
  case isTrue => exact .some (.inl rfl) .minus digits
  case isFalse => exact .some (.inl rfl) .none digits

end TypedJson.Numeral
