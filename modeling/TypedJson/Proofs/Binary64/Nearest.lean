import Mathlib.Algebra.Order.Field.Power
import Mathlib.Data.Int.Log
import Mathlib.Data.Rat.Floor
import Mathlib.Tactic.FieldSimp
import Mathlib.Tactic.Linarith
import Mathlib.Tactic.NormNum
import Mathlib.Tactic.Positivity
import Mathlib.Tactic.Ring
import TypedJson.Binary64.Decimal

/-! Rounding to doubles. The magnitude of a finite double rounds to the double itself, and what the
conversion of a decimal leaves uncomputed would have come to the same, so the double nearest to a
decimal depends on its sign and its magnitude alone. -/
namespace TypedJson

namespace Rounding

variable {value : ℚ} {k : ℤ}

/-- The logarithms of numerator and denominator leave two candidates, and a comparison decides. -/
theorem log2_eq (positive : 0 < value) : log2 value = Int.log 2 value := by
  have numPositive : 0 < value.num := Rat.num_pos.mpr positive
  have denPositive : (0 : ℚ) < value.den := by exact_mod_cast value.den_pos
  have whole : value * value.den = value.num.natAbs := by
    rw [Rat.mul_den_eq_num, ← Int.cast_natCast, Int.natAbs_of_nonneg numPositive.le]
  have numLow : (2 : ℚ) ^ (value.num.natAbs.log2 : ℤ) ≤ value.num.natAbs := by
    exact_mod_cast Nat.log2_self_le (by omega)
  have numHigh : (value.num.natAbs : ℚ) < 2 ^ (value.num.natAbs.log2 + 1 : ℤ) := by
    exact_mod_cast Nat.lt_log2_self
  have denLow : (2 : ℚ) ^ (value.den.log2 : ℤ) ≤ value.den := by
    exact_mod_cast Nat.log2_self_le value.den_ne_zero
  have denHigh : (value.den : ℚ) < 2 ^ (value.den.log2 + 1 : ℤ) := by
    exact_mod_cast Nat.lt_log2_self
  rw [log2, floorLog]
  generalize (value.num.natAbs.log2 : ℤ) = a at *
  generalize (value.den.log2 : ℤ) = b at *
  have above : value < 2 ^ (a - b + 1) := by
    refine lt_of_mul_lt_mul_right ?_ denPositive.le
    calc value * value.den = value.num.natAbs := whole
      _ < 2 ^ (a + 1) := numHigh
      _ = 2 ^ (a - b + 1) * 2 ^ b := by rw [← zpow_add₀ two_ne_zero]; ring_nf
      _ ≤ 2 ^ (a - b + 1) * value.den := by gcongr
  have below : 2 ^ (a - b - 1) < value := by
    refine lt_of_mul_lt_mul_right ?_ denPositive.le
    calc (2 : ℚ) ^ (a - b - 1) * value.den < 2 ^ (a - b - 1) * 2 ^ (b + 1) := by gcongr
      _ = 2 ^ a := by rw [← zpow_add₀ two_ne_zero]; ring_nf
      _ ≤ value.num.natAbs := numLow
      _ = value * value.den := whole.symm
  have atLeast (k : ℤ) : k ≤ Int.log 2 value ↔ (2 : ℚ) ^ k ≤ value := by
    exact_mod_cast (Int.zpow_le_iff_le_log one_lt_two positive).symm
  have lessThan (k : ℤ) : Int.log 2 value < k ↔ value < (2 : ℚ) ^ k := by
    exact_mod_cast (Int.lt_zpow_iff_log_lt one_lt_two positive).symm
  have upper := (lessThan _).mpr above
  have lower := (atLeast _).mpr below.le
  simp only [Nat.cast_ofNat]
  split
  case isTrue reached =>
    have := (atLeast _).mpr reached
    omega
  case isFalse missed =>
    have := (lessThan _).mpr (not_le.mp missed)
    omega

theorem le_log2_iff (positive : 0 < value) : k ≤ log2 value ↔ (2 : ℚ) ^ k ≤ value := by
  rw [log2_eq positive]
  exact_mod_cast (Int.zpow_le_iff_le_log one_lt_two positive).symm

theorem log2_lt_iff (positive : 0 < value) : log2 value < k ↔ value < (2 : ℚ) ^ k := by
  rw [log2_eq positive]
  exact_mod_cast (Int.lt_zpow_iff_log_lt one_lt_two positive).symm

theorem halfEven_natCast (n : Nat) : halfEven n = n := by
  have whole : (n : ℚ).floor = n := by rw [← Int.cast_natCast, Rat.floor_intCast]
  rw [halfEven]
  simp only [whole, Int.cast_natCast, sub_self]
  rw [if_pos (by norm_num)]

theorem halfEven_small (nonneg : 0 ≤ value) (small : value < 1 / 2) : halfEven value = 0 := by
  have whole : value.floor = 0 := Int.floor_eq_zero_iff.mpr ⟨nonneg, small.trans (by norm_num)⟩
  rw [halfEven]
  simp only [whole, Int.cast_zero, sub_zero]
  rw [if_pos small]

end Rounding

namespace Binary64
open Rounding

variable {value : ℚ} {units steps : Nat}

theorem fractionCount_eq : fractionCount = 2 ^ 52 := rfl

theorem signPlace_eq : signPlace = 2 ^ 63 := rfl

/-- A whole number of units of a last place is rounded to itself if it fills the fraction, or if
there is no finer place. -/
theorem nearestCode_units (positive : 0 < units) (fits : units < 2 * fractionCount)
    (normal : steps = 0 ∨ fractionCount ≤ units) :
    nearestCode (units * (2 : ℚ) ^ (-1074 + steps : ℤ)) =
      min (steps * fractionCount + units) infinityCode := by
  have unitsPositive : (0 : ℚ) < units := by exact_mod_cast positive
  generalize same : (-1074 + steps : ℤ) = place
  have positive : 0 < units * (2 : ℚ) ^ place := by positivity
  have above : log2 (units * (2 : ℚ) ^ place) < place + 53 := by
    rw [log2_lt_iff positive, add_comm, zpow_add₀ two_ne_zero]
    gcongr
    rw [fractionCount_eq] at fits
    exact_mod_cast fits
  have last : lastPlace (units * (2 : ℚ) ^ place) = place := by
    rw [lastPlace]
    rcases normal with rfl | filled
    · omega
    · have below : place + 52 ≤ log2 (units * (2 : ℚ) ^ place) := by
        rw [le_log2_iff positive, add_comm, zpow_add₀ two_ne_zero]
        gcongr
        rw [fractionCount_eq] at filled
        exact_mod_cast filled
      omega
  have exact : units * (2 : ℚ) ^ place / 2 ^ place = units := by field_simp
  have whole : (place + 1074).toNat = steps := by omega
  simp only [nearestCode, last, exact, halfEven_natCast, Int.toNat_natCast, whole]

theorem nearestCode_small (positive : 0 < value) (small : value < 10 ^ (-330 : ℤ)) :
    nearestCode value = 0 := by
  have powers : (2 : ℚ) ^ 1075 < 10 ^ 330 := by
    -- by their fifth roots, which are small enough to evaluate
    rw [show 1075 = 215 * 5 from rfl, show 330 = 66 * 5 from rfl, pow_mul, pow_mul]
    gcongr
    norm_num
  have tiny : value < 2 ^ (-1075 : ℤ) := by
    refine small.trans ?_
    rw [zpow_neg, zpow_neg]
    exact inv_strictAnti₀ (by positivity) powers
  have low : log2 value < -1075 := (log2_lt_iff positive).mpr tiny
  have last : lastPlace value = -1074 := by
    rw [lastPlace]
    omega
  have rounded : halfEven (value / 2 ^ (-1074 : ℤ)) = 0 := by
    refine halfEven_small (by positivity) ?_
    rw [div_lt_iff₀ (by positivity)]
    rwa [show (-1075 : ℤ) = -1 + -1074 from rfl, zpow_add₀ two_ne_zero, zpow_neg_one,
      ← one_div] at tiny
  simp only [nearestCode, last, rounded]
  rfl

theorem nearestCode_large (large : 10 ^ (311 : ℤ) ≤ value) : nearestCode value = infinityCode := by
  have positive : 0 < value := lt_of_lt_of_le (by positivity) large
  have powers : (2 : ℚ) ^ (1030 : ℤ) ≤ 10 ^ (311 : ℤ) := by
    rw [show (1030 : ℤ) = 206 * 5 from rfl, show (311 : ℤ) = 62 * 5 + 1 from rfl, zpow_mul,
      zpow_add_one₀ (by norm_num), zpow_mul]
    norm_num
  have high : 1030 ≤ log2 value := (le_log2_iff positive).mpr (powers.trans large)
  have last : 2047 ≤ (lastPlace value + 1074).toNat := by
    rw [lastPlace]
    omega
  simp only [nearestCode]
  refine Nat.min_eq_right ?_
  have := Nat.mul_le_mul_right fractionCount last
  rw [infinityCode]
  omega

variable {x : Binary64} {negative : Bool} {code : Nat}

theorem toNat_ofCode (bound : code < signPlace) :
    (ofCode negative code).bits.toNat = code + if negative then signPlace else 0 := by
  rw [ofCode, UInt64.toNat_ofNat']
  refine Nat.mod_eq_of_lt ?_
  rw [signPlace_eq] at *
  split <;> omega

theorem code_ofCode (bound : code < signPlace) : (ofCode negative code).code = code := by
  rw [Binary64.code, toNat_ofCode bound]
  split
  case isTrue => rw [Nat.add_mod_right, Nat.mod_eq_of_lt bound]
  case isFalse => rw [Nat.add_zero, Nat.mod_eq_of_lt bound]

theorem ofCode_code (x : Binary64) : ofCode x.negative x.code = x := by
  have bound := x.bits.toNat_lt
  have parts : x.code + (if x.negative then signPlace else 0) = x.bits.toNat := by
    simp only [code, negative, decide_eq_true_eq]
    rw [signPlace_eq]
    split <;> omega
  rw [ofCode, parts, UInt64.ofNat_toNat]

/-- A magnitude is a number of units of its last place, as the code counts them: under each
exponent but the first they have the hidden bit. -/
theorem exists_units (x : Binary64) : ∃ units steps : Nat,
    x.magnitude = units * (2 : ℚ) ^ (-1074 + steps : ℤ) ∧
      x.code = steps * fractionCount + units ∧ units < 2 * fractionCount ∧
        (steps = 0 ∨ fractionCount ≤ units) := by
  have parts := Nat.div_add_mod x.code fractionCount
  have small : x.code % fractionCount < fractionCount := Nat.mod_lt _ (by decide)
  simp only [magnitude]
  generalize x.code / fractionCount = exponent at *
  generalize x.code % fractionCount = fraction at *
  cases exponent with
  | zero =>
    refine ⟨fraction, 0, rfl, ?_, by omega, .inl rfl⟩
    rw [← parts, Nat.mul_zero, Nat.zero_mul]
  | succ steps =>
    refine ⟨fraction + fractionCount, steps, ?_, ?_, by omega, .inr (by omega)⟩
    · rw [if_neg (Nat.succ_ne_zero steps)]
      congr 2
      omega
    · rw [← parts, Nat.mul_succ, Nat.mul_comm]
      omega

theorem units_pos (nonzero : steps * fractionCount + units ≠ 0)
    (normal : steps = 0 ∨ fractionCount ≤ units) : 0 < units := by
  rcases normal with rfl | filled
  · omega
  · exact lt_of_lt_of_le (by decide) filled

theorem magnitude_pos (nonzero : x.code ≠ 0) : 0 < x.magnitude := by
  obtain ⟨units, steps, magnitude, code, _, normal⟩ := exists_units x
  rw [code] at nonzero
  have positive : (0 : ℚ) < units := by exact_mod_cast units_pos nonzero normal
  rw [magnitude]
  positivity

/-- A finite magnitude is rounded to itself. -/
theorem nearestCode_magnitude (finite : x.isFinite = true) (nonzero : x.code ≠ 0) :
    nearestCode x.magnitude = x.code := by
  have bound : x.code < infinityCode := of_decide_eq_true finite
  obtain ⟨units, steps, magnitude, code, fits, normal⟩ := exists_units x
  rw [code] at bound nonzero
  rw [magnitude, nearestCode_units (units_pos nonzero normal) fits normal, code]
  exact Nat.min_eq_left bound.le

end Binary64

namespace Decimal
open Binary64

variable {d e : Decimal} {x : Binary64}

theorem magnitude_eq_zero_iff : d.magnitude = 0 ↔ d.coefficient = 0 := by
  rw [magnitude, mul_eq_zero, Nat.cast_eq_zero]
  exact or_iff_left (by positivity)

theorem magnitude_pos (nonzero : d.coefficient ≠ 0) : 0 < d.magnitude := by
  have : (0 : ℚ) < d.coefficient := by exact_mod_cast Nat.pos_of_ne_zero nonzero
  rw [magnitude]
  positivity

/-- The powers of ten that are not computed would have given the same answer. -/
theorem toBinary64_eq (nonzero : d.coefficient ≠ 0) :
    d.toBinary64 = .ofCode d.negative (nearestCode d.magnitude) := by
  rw [toBinary64]
  split
  case isTrue below =>
    have low : d.exponent + d.coefficient.log2 + 1 < -330 := below.resolve_left nonzero
    have digits : (d.coefficient : ℚ) < 10 ^ (d.coefficient.log2 + 1 : ℤ) := by
      have binary : d.coefficient < 10 ^ (d.coefficient.log2 + 1) :=
        Nat.lt_log2_self.trans (Nat.pow_lt_pow_left (by decide) (Nat.succ_ne_zero _))
      exact_mod_cast binary
    have small : d.magnitude < 10 ^ (-330 : ℤ) := by
      calc d.magnitude < 10 ^ (d.coefficient.log2 + 1 : ℤ) * 10 ^ d.exponent := by
            rw [magnitude]
            gcongr
        _ = 10 ^ (d.coefficient.log2 + 1 + d.exponent : ℤ) := by
            rw [← zpow_add₀ (by norm_num)]
        _ ≤ 10 ^ (-330 : ℤ) := zpow_le_zpow_right₀ (by norm_num) (by omega)
    rw [nearestCode_small (magnitude_pos nonzero) small]
  case isFalse =>
    split
    case isTrue high =>
      have one : (1 : ℚ) ≤ d.coefficient := by exact_mod_cast Nat.pos_of_ne_zero nonzero
      have large : 10 ^ (311 : ℤ) ≤ d.magnitude := by
        calc (10 : ℚ) ^ (311 : ℤ) ≤ 10 ^ d.exponent :=
              zpow_le_zpow_right₀ (by norm_num) (by omega)
          _ ≤ d.magnitude := le_mul_of_one_le_left (by positivity) one
      rw [nearestCode_large large]
    case isFalse => rfl

theorem toBinary64_congr (sign : d.negative = e.negative) (same : d.magnitude = e.magnitude) :
    d.toBinary64 = e.toBinary64 := by
  by_cases zero : d.coefficient = 0
  · have also : e.coefficient = 0 := by
      rwa [← magnitude_eq_zero_iff, ← same, magnitude_eq_zero_iff]
    rw [toBinary64, toBinary64, if_pos (.inl zero), if_pos (.inl also), sign]
  · have also : e.coefficient ≠ 0 := by
      rwa [ne_eq, ← magnitude_eq_zero_iff, ← same, magnitude_eq_zero_iff]
    rw [toBinary64_eq zero, toBinary64_eq also, sign, same]

/-- A decimal with the sign and the magnitude of a finite double reads back as it. -/
theorem toBinary64_exact (finite : x.isFinite = true) (nonzero : x.code ≠ 0)
    (sign : d.negative = x.negative) (same : d.magnitude = x.magnitude) : d.toBinary64 = x := by
  have coefficient : d.coefficient ≠ 0 := by
    rw [ne_eq, ← magnitude_eq_zero_iff, same]
    exact (Binary64.magnitude_pos nonzero).ne'
  rw [toBinary64_eq coefficient, sign, same, nearestCode_magnitude finite nonzero, ofCode_code]

end Decimal

end TypedJson
