import Mathlib.Data.List.DropRight
import TypedJson.Proofs.Binary64.Shortest
import TypedJson.Proofs.Grammar.Value

/-! The text of a double is a number of the grammar, and the text of a finite one reads back as it:
whichever way the digits are laid out, point and exponent make up for where they are moved to. -/
namespace TypedJson.Binary64
open Grammar Numeral

variable {x : Binary64} {chars digits mantissa : List Char} {sign exponent : List UInt8}
  {magnitude : ℚ} {integral : Bool}

/-- The bytes of a text, which is all ASCII. -/
def bytes (chars : List Char) : List UInt8 := chars.map Char.toUInt8

theorem bytes_append (first second : List Char) :
    bytes (first ++ second) = bytes first ++ bytes second :=
  List.map_append

/-- Some digits, of which the first is not zero. -/
def Significant (digits : List Char) : Prop :=
  (∀ char ∈ digits, char.isDigit = true) ∧
    ∃ first rest, digits = first :: rest ∧ Ascii.isNonzeroDigit first.toUInt8 = true

/-- Digits with a point among them, unless none follow it, that denote a magnitude. -/
def Pointed (text : List Char) (magnitude : ℚ) : Prop :=
  ∃ whole fraction, text = whole ++ (if fraction.isEmpty then [] else '.' :: fraction) ∧
    Whole (bytes whole) ∧ (∀ char ∈ whole ++ fraction, char.isDigit = true) ∧
      Nat.ofDigitChars 10 (whole ++ fraction) 0 * (10 : ℚ) ^ (-fraction.length : ℤ) = magnitude

theorem isDigit_replicate (count : Nat) :
    ∀ char ∈ List.replicate count '0', char.isDigit = true := by
  intro char member
  rw [List.eq_of_mem_replicate member]
  rfl

theorem Significant.whole (valid : Significant digits)
    (more : ∀ char ∈ chars, char.isDigit = true) : Whole (bytes (digits ++ chars)) := by
  obtain ⟨isDigit, first, rest, rfl, nonzero⟩ := valid
  refine .digits nonzero fun byte member => ?_
  obtain ⟨char, inside, rfl⟩ : ∃ char ∈ rest ++ chars, char.toUInt8 = byte := List.mem_map.mp member
  rcases List.mem_append.mp inside with member | member
  · exact isDigit_toUInt8 (isDigit char (List.mem_cons_of_mem _ member))
  · exact isDigit_toUInt8 (more char member)

theorem Significant.take (valid : Significant digits) {count : Nat} (positive : 0 < count) :
    Significant (digits.take count) := by
  obtain ⟨isDigit, first, rest, rfl, nonzero⟩ := valid
  obtain ⟨count, rfl⟩ := Nat.exists_eq_succ_of_ne_zero positive.ne'
  exact ⟨fun char member => isDigit char (List.mem_of_mem_take member), first, rest.take count, rfl,
    nonzero⟩

variable (valid : Significant digits)
include valid

/-- Zeros in front of the digits, up to the point. -/
theorem positional_below {place : ℤ} (low : place ≤ 0) : Pointed (positional digits place)
    (Nat.ofDigitChars 10 digits 0 * (10 : ℚ) ^ (place - digits.length)) := by
  have zeros := isDigit_replicate place.natAbs
  have fraction := List.forall_mem_append.mpr ⟨zeros, valid.1⟩
  refine ⟨['0'], List.replicate place.natAbs '0' ++ digits, ?_, .zero, ?_, ?_⟩
  · obtain ⟨_, first, rest, rfl, _⟩ := valid
    rw [positional, if_pos low]
    simp
  · exact List.forall_mem_append.mpr ⟨isDigit_replicate 1, fraction⟩
  · have value : Nat.ofDigitChars 10 (['0'] ++ (List.replicate place.natAbs '0' ++ digits)) 0 =
        Nat.ofDigitChars 10 digits 0 := by
      rw [Nat.ofDigitChars_append, Nat.ofDigitChars_append, Nat.ofDigitChars_replicate_zero]
      rfl
    rw [value, List.length_append, List.length_replicate]
    congr 2
    omega

/-- Zeros after the digits, up to the point, and one more. -/
theorem positional_past {count : Nat} (positive : 0 < count) (short : digits.length ≤ count) :
    Pointed (positional digits count)
      (Nat.ofDigitChars 10 digits 0 * (10 : ℚ) ^ (count - digits.length : ℤ)) := by
  have zeros := isDigit_replicate (count - digits.length)
  have whole := List.forall_mem_append.mpr ⟨valid.1, zeros⟩
  refine ⟨digits ++ List.replicate (count - digits.length) '0', ['0'], ?_, valid.whole zeros, ?_,
    ?_⟩
  · rw [positional, if_neg (by omega), Int.toNat_natCast, List.take_of_length_le short,
      List.drop_of_length_le short]
    simp
  · exact List.forall_mem_append.mpr ⟨whole, isDigit_replicate 1⟩
  · have value : Nat.ofDigitChars 10
        (digits ++ List.replicate (count - digits.length) '0' ++ List.replicate 1 '0') 0 =
          Nat.ofDigitChars 10 digits 0 * 10 ^ (count - digits.length + 1) := by
      rw [Nat.ofDigitChars_append, Nat.ofDigitChars_append, Nat.ofDigitChars_replicate_zero,
        Nat.ofDigitChars_replicate_zero]
      ring
    change (Nat.ofDigitChars 10 (digits ++ _ ++ List.replicate 1 '0') 0 : ℚ) * _ = _
    rw [value, Nat.cast_mul, Nat.cast_pow, mul_assoc, Nat.cast_ofNat, ← zpow_natCast,
      ← zpow_add₀ (by norm_num)]
    congr 2
    simp only [List.length_singleton]
    omega

/-- A point among the digits. -/
theorem positional_amid {count : Nat} (positive : 0 < count) (long : count < digits.length) :
    Pointed (positional digits count)
      (Nat.ofDigitChars 10 digits 0 * (10 : ℚ) ^ (count - digits.length : ℤ)) := by
  have parts := List.take_append_drop count digits
  have whole := (valid.take positive).whole (isDigit_replicate 0)
  rw [List.replicate_zero, List.append_nil] at whole
  refine ⟨digits.take count, digits.drop count, ?_, whole, ?_, ?_⟩
  · have some : (digits.drop count).isEmpty = false := by
      rw [List.isEmpty_eq_false_iff, ne_eq, List.drop_eq_nil_iff]
      omega
    rw [positional, if_neg (by omega), Int.toNat_natCast]
    simp only [some, List.length_take, Nat.min_eq_left long.le, Nat.sub_self]
    simp
  · rw [parts]
    exact valid.1
  · rw [parts, List.length_drop]
    congr 2
    omega

theorem positional_pointed (place : ℤ) : Pointed (positional digits place)
    (Nat.ofDigitChars 10 digits 0 * (10 : ℚ) ^ (place - digits.length)) := by
  rcases le_or_gt place 0 with low | high
  · exact positional_below valid low
  · obtain ⟨count, rfl⟩ := Int.eq_ofNat_of_zero_le high.le
    have positive : 0 < count := by omega
    rcases le_or_gt digits.length count with short | long
    · exact positional_past valid positive short
    · exact positional_amid valid positive long

/-- A point after the first digit, and a power of ten that moves it to its place. -/
theorem scientific_pointed (leading : ℤ) : ∃ mantissa,
    bytes (scientific digits leading) = bytes mantissa ++ Ascii.lowerE :: ofInt leading ∧
      Pointed mantissa (Nat.ofDigitChars 10 digits 0 * (10 : ℚ) ^ (1 - digits.length : ℤ)) := by
  have parts := List.take_append_drop 1 digits
  have whole := (valid.take Nat.one_pos).whole (isDigit_replicate 0)
  rw [List.replicate_zero, List.append_nil] at whole
  refine ⟨digits.take 1 ++ (if (digits.drop 1).isEmpty then [] else '.' :: digits.drop 1), ?_,
    digits.take 1, digits.drop 1, rfl, whole, ?_, ?_⟩
  · rw [scientific, bytes_append, ← map_toString]
    rfl
  · rw [parts]
    exact valid.1
  · obtain ⟨_, first, rest, rfl, _⟩ := valid
    rw [parts, List.length_drop]
    congr 2
    rw [List.length_cons]
    omega

omit valid

/-- The digits of a number, less the zeros at its end. -/
theorem exists_significant {n : Nat} (positive : 0 < n) : ∃ digits zeros,
    ((Nat.toDigits 10 n).reverse.dropWhile (· == '0')).reverse = digits ∧ Significant digits ∧
      (Nat.toDigits 10 n).length = digits.length + zeros ∧
        n = 10 ^ zeros * Nat.ofDigitChars 10 digits 0 := by
  obtain ⟨digits, zeros, same, parts⟩ : ∃ digits zeros,
      ((Nat.toDigits 10 n).reverse.dropWhile (· == '0')).reverse = digits ∧
        Nat.toDigits 10 n = digits ++ List.replicate zeros '0' := by
    refine ⟨_, ((Nat.toDigits 10 n).rtakeWhile (· == '0')).length, rfl, ?_⟩
    have zero : ∀ char ∈ (Nat.toDigits 10 n).rtakeWhile (· == '0'), char = '0' := by
      intro char member
      have zero := List.mem_rtakeWhile_imp member
      exact eq_of_beq zero
    rw [← List.eq_replicate_of_mem zero]
    exact List.rdropWhile_append_rtakeWhile.symm
  refine ⟨digits, zeros, same, ⟨fun char member => ?_, ?_⟩, ?_, ?_⟩
  · refine toDigits_isDigit (n := n) char ?_
    rw [parts]
    exact List.mem_append_left _ member
  · obtain ⟨first, rest, head, nonzero⟩ := toDigits_head positive
    rw [parts] at head
    cases digits with
    | nil =>
      -- the zeros cannot begin the digits
      have zero : first = '0' := List.eq_of_mem_replicate (by
        rw [List.nil_append] at head
        rw [head]
        exact List.mem_cons_self)
      rw [zero] at nonzero
      exact nomatch nonzero
    | cons digit digits =>
      obtain ⟨rfl, _⟩ := List.cons.inj head
      exact ⟨digit, digits, rfl, nonzero⟩
  · rw [parts, List.length_append, List.length_replicate]
  · rw [← Nat.ofDigitChars_replicate_zero, ← Nat.ofDigitChars_append, ← parts,
      Nat.ofDigitChars_ten_toDigits]

/-- The exponent of the first digit. -/
def leadingPlace (decimal : Decimal) : ℤ :=
  decimal.exponent + (Nat.toDigits 10 decimal.coefficient).length - 1

theorem toDigits_bounds {n : Nat} (positive : 0 < n) :
    10 ^ ((Nat.toDigits 10 n).length - 1) ≤ n ∧ n < 10 ^ (Nat.toDigits 10 n).length := by
  have length := Nat.length_toDigits_pos (b := 10) (n := n)
  constructor
  · by_contra low
    rcases Nat.lt_or_ge 1 (Nat.toDigits 10 n).length with long | short
    · have := (Nat.length_toDigits_le_iff (b := 10) (by decide) (by omega)).mpr (not_le.mp low)
      omega
    · rw [Nat.sub_eq_zero_of_le short, pow_zero] at low
      omega
  · exact (Nat.length_toDigits_le_iff (by decide) length).mp le_rfl

theorem magnitude_leadingPlace {decimal : Decimal} (nonzero : decimal.coefficient ≠ 0) :
    10 ^ leadingPlace decimal ≤ decimal.magnitude ∧
      decimal.magnitude < 10 ^ (leadingPlace decimal + 1) := by
  have length := Nat.length_toDigits_pos (b := 10) (n := decimal.coefficient)
  obtain ⟨low, high⟩ := toDigits_bounds (Nat.pos_of_ne_zero nonzero)
  rw [Decimal.magnitude, leadingPlace]
  generalize (Nat.toDigits 10 decimal.coefficient).length = count at *
  obtain ⟨count, rfl⟩ := Nat.exists_eq_succ_of_ne_zero length.ne'
  constructor
  · calc (10 : ℚ) ^ (decimal.exponent + count.succ - 1) = 10 ^ count * 10 ^ decimal.exponent := by
          rw [← zpow_natCast, ← zpow_add₀ (by norm_num)]
          congr 1
          omega
      _ ≤ decimal.coefficient * 10 ^ decimal.exponent := by
          gcongr
          exact_mod_cast low
  · calc (decimal.coefficient : ℚ) * 10 ^ decimal.exponent
        < 10 ^ count.succ * 10 ^ decimal.exponent := by
          gcongr
          exact_mod_cast high
      _ = 10 ^ (decimal.exponent + count.succ - 1 + 1) := by
          rw [← zpow_natCast, ← zpow_add₀ (by norm_num)]
          congr 1
          omega

/-- The text of a magnitude, and what it denotes unless its exponent is out of all bounds. -/
theorem digitsText_parts (x : Binary64) : ∃ mantissa exponent magnitude,
    bytes x.digitsText = bytes mantissa ++ exponent ∧ Pointed mantissa magnitude ∧
      Exponent exponent ∧
        ((x.shortest.coefficient ≠ 0 → (leadingPlace x.shortest).natAbs < 65536) →
          magnitude * 10 ^ signedExponent exponent = x.shortest.magnitude) := by
  by_cases zero : x.shortest.coefficient = 0
  · refine ⟨"0.0".toList, [], 0, ?_, ⟨['0'], ['0'], rfl, .zero, isDigit_replicate 2, ?_⟩, .none, ?_⟩
    · rw [digitsText, if_pos zero, List.append_nil]
    · exact zero_mul _
    · rw [zero_mul, Decimal.magnitude, zero, Nat.cast_zero, zero_mul]
      exact fun _ => rfl
  · obtain ⟨digits, zeros, same, valid, length, value⟩ :=
      exists_significant (Nat.pos_of_ne_zero zero)
    have exact : (Nat.ofDigitChars 10 digits 0 : ℚ) *
        10 ^ (leadingPlace x.shortest + 1 - digits.length) = x.shortest.magnitude := by
      have place : leadingPlace x.shortest + 1 - digits.length = zeros + x.shortest.exponent := by
        rw [leadingPlace, length, Nat.cast_add]
        ring
      rw [place, zpow_add₀ (by norm_num), zpow_natCast, Decimal.magnitude, value]
      push_cast
      ring
    rw [digitsText]
    simp only [same, if_neg zero]
    change ∃ mantissa exponent magnitude, bytes (if lowestPositional ≤ leadingPlace x.shortest ∧
      leadingPlace x.shortest < pastPositional then _ else _) = _ ∧ _
    split
    case isTrue =>
      refine ⟨_, [], _, (List.append_nil _).symm, positional_pointed valid _, .none, fun _ => ?_⟩
      rw [← exact]
      exact mul_one _
    case isFalse =>
      obtain ⟨mantissa, text, pointed⟩ := scientific_pointed valid (leadingPlace x.shortest)
      refine ⟨mantissa, _, _, text, pointed, exponent_ofInt _, fun small => ?_⟩
      rw [signedExponent_ofInt (small zero), ← exact, mul_assoc, ← zpow_add₀ (by norm_num)]
      congr 2
      ring

/-- The value of a text is what its mantissa denotes, moved by its exponent. -/
theorem Pointed.number (pointed : Pointed mantissa magnitude) (valid : Exponent exponent)
    (signed : Sign sign) : Number (sign ++ (bytes mantissa ++ exponent)) ∧ ∀ integral,
      (toDecimal ⟨sign ++ (bytes mantissa ++ exponent), integral⟩).negative =
        (sign.head? == some Ascii.minus) ∧
      (toDecimal ⟨sign ++ (bytes mantissa ++ exponent), integral⟩).magnitude =
        magnitude * 10 ^ signedExponent exponent := by
  obtain ⟨whole, fraction, rfl, first, isDigit, value⟩ := pointed
  obtain ⟨part, same, fractional, tail⟩ : ∃ part,
      bytes (if fraction.isEmpty then [] else '.' :: fraction) = part ∧ Fraction part ∧
        part.tail = bytes fraction := by
    cases fraction with
    | nil => exact ⟨[], rfl, .none, rfl⟩
    | cons char fraction =>
      refine ⟨_, rfl, .some ⟨List.cons_ne_nil _ _, fun byte member => ?_⟩, rfl⟩
      obtain ⟨char, inside, rfl⟩ := List.mem_map.mp member
      exact isDigit_toUInt8 (isDigit char (List.mem_append_right _ inside))
  have coefficient : digitsValue (bytes whole ++ bytes fraction) =
      Nat.ofDigitChars 10 (whole ++ fraction) 0 := by
    rw [← bytes_append]
    exact digitsValue_map isDigit 0
  rw [bytes_append, same, List.append_assoc]
  constructor
  · have number := Number.mk (.mk signed first fractional) valid
    rwa [List.append_assoc, List.append_assoc] at number
  · intro integral
    rw [toDecimal_eq signed first fractional valid, tail, Decimal.magnitude, coefficient]
    constructor
    · rfl
    · rw [← value, mul_assoc, ← zpow_add₀ (by norm_num), bytes, List.length_map]
      congr 2
      ring

theorem text_parts (x : Binary64) : ∃ sign, x.text = sign ++ bytes x.digitsText ∧ Sign sign ∧
    (sign.head? == some Ascii.minus) = x.negative := by
  rw [text]
  cases x.negative with
  | false => exact ⟨[], rfl, .none, rfl⟩
  | true => exact ⟨[Ascii.minus], rfl, .minus, rfl⟩

theorem number_text (x : Binary64) : Number x.text := by
  obtain ⟨sign, same, signed, _⟩ := text_parts x
  obtain ⟨mantissa, exponent, magnitude, text, pointed, valid, _⟩ := digitsText_parts x
  rw [same, text]
  exact (pointed.number valid signed).1

/-- The exponents of finite numbers are far from what the reader leaves off. -/
theorem leadingPlace_bound (finite : x.isFinite = true) (nonzero : x.shortest.coefficient ≠ 0) :
    (leadingPlace x.shortest).natAbs < 65536 := by
  have code : x.code ≠ 0 := by
    intro zero
    rw [shortest, if_pos zero] at nonzero
    exact nonzero rfl
  obtain ⟨above, below⟩ := magnitude_bounds finite code nonzero (shortest_sound finite).2
  obtain ⟨low, high⟩ := magnitude_leadingPlace nonzero
  have upper := (zpow_lt_zpow_iff_right₀ (by norm_num)).mp (low.trans_lt below)
  have lower := (zpow_lt_zpow_iff_right₀ (by norm_num)).mp (above.trans_lt high)
  omega

/-- The text of a finite number reads back as the number. -/
theorem toBinary64_text (finite : x.isFinite = true) : toBinary64 ⟨x.text, integral⟩ = x := by
  obtain ⟨sign, same, signed, negative⟩ := text_parts x
  obtain ⟨mantissa, exponent, magnitude, text, pointed, valid, exact⟩ := digitsText_parts x
  obtain ⟨sameSign, sameMagnitude⟩ := (pointed.number valid signed).2 integral
  obtain ⟨shortestSign, reads⟩ := shortest_sound finite
  rw [exact (leadingPlace_bound finite)] at sameMagnitude
  rw [← text, ← same] at sameSign sameMagnitude
  rw [toBinary64, Decimal.toBinary64_congr _ sameMagnitude, reads]
  rw [sameSign, negative, shortestSign]

end TypedJson.Binary64
