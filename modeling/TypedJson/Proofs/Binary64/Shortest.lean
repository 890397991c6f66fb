import TypedJson.Binary64.Shortest
import TypedJson.Proofs.Binary64.Nearest

/-! The shortest decimal of a finite double reads back as the double. A grid is left only for a
finer one, and the last of them holds the number itself, so the search cannot miss. -/
namespace TypedJson.Binary64
open Rounding

variable {x : Binary64} {value : ℚ} {exponent : ℤ} {finer : Nat} {decimal : Decimal}

theorem gridHit_sound (hit : gridHit x value exponent = some decimal) :
    decimal.negative = x.negative ∧ decimal.toBinary64 = x := by
  simp only [gridHit] at hit
  split at hit
  case h_1 below above =>
    obtain rfl := Option.some.inj hit
    split
    case isTrue => exact ⟨rfl, beq_iff_eq.mp below⟩
    case isFalse => exact ⟨rfl, beq_iff_eq.mp above⟩
  case h_2 below _ =>
    obtain rfl := Option.some.inj hit
    exact ⟨rfl, beq_iff_eq.mp below⟩
  case h_3 _ above =>
    obtain rfl := Option.some.inj hit
    exact ⟨rfl, beq_iff_eq.mp above⟩
  case h_4 => cases hit

theorem two_zpow_eq (least place more : Nat) : (2 : ℚ) ^ (-least + place : ℤ) =
    (2 ^ place * 5 ^ least * 10 ^ more : Nat) * 10 ^ (-least - more : ℤ) := by
  have ten : (10 : ℚ) ^ least = 2 ^ least * 5 ^ least := by
    rw [← mul_pow]
    norm_num
  rw [zpow_add₀ two_ne_zero, zpow_sub₀ (by norm_num), zpow_neg, zpow_neg]
  simp only [zpow_natCast, Nat.cast_mul, Nat.cast_pow, Nat.cast_ofNat, ten]
  field_simp

/-- A magnitude is a whole number of units of `2 ^ (-1074)`, and so of any power of ten that is fine
enough. -/
theorem exists_grid (x : Binary64) (fine : exponent ≤ -1074) :
    ∃ n : Nat, x.magnitude / 10 ^ exponent = n := by
  obtain ⟨units, steps, magnitude, _⟩ := exists_units x
  obtain ⟨more, rfl⟩ : ∃ more : Nat, exponent = -(1074 : Nat) - more :=
    ⟨(-1074 - exponent).toNat, by omega⟩
  refine ⟨units * (2 ^ steps * 5 ^ 1074 * 10 ^ more), ?_⟩
  rw [div_eq_iff (by positivity), Nat.cast_mul, mul_assoc, ← two_zpow_eq, magnitude]
  rfl

theorem searchGrids_sound (finite : x.isFinite = true) (nonzero : x.code ≠ 0)
    (reaches : exponent - finer ≤ -1074) :
    (searchGrids x x.magnitude exponent finer).negative = x.negative ∧
      (searchGrids x x.magnitude exponent finer).toBinary64 = x := by
  induction finer generalizing exponent with
  | zero =>
    obtain ⟨n, exact⟩ := exists_grid x (by omega : exponent ≤ -1074)
    refine ⟨rfl, Decimal.toBinary64_exact finite nonzero rfl ?_⟩
    have whole : (n : ℚ).floor = n := by rw [← Int.cast_natCast, Rat.floor_intCast]
    rw [searchGrids, exact, whole, Decimal.magnitude, Int.toNat_natCast, ← exact]
    field_simp
  | succ finer ih =>
    rw [searchGrids]
    split
    case h_1 decimal hit => exact gridHit_sound hit
    case h_2 => exact ih (by omega)

/-- The shortest decimal reads back as the number. -/
theorem shortest_sound (finite : x.isFinite = true) :
    x.shortest.negative = x.negative ∧ x.shortest.toBinary64 = x := by
  rw [shortest]
  split
  case isTrue zero =>
    constructor
    · rfl
    · rw [Decimal.toBinary64, if_pos (.inl rfl), ← zero, ofCode_code]
  case isFalse nonzero => exact searchGrids_sound finite nonzero (by omega)

/-- What reads back as a finite number other than zero is neither tiny nor huge. -/
theorem magnitude_bounds (finite : x.isFinite = true) (nonzero : x.code ≠ 0)
    (coefficient : decimal.coefficient ≠ 0) (reads : decimal.toBinary64 = x) :
    10 ^ (-330 : ℤ) ≤ decimal.magnitude ∧ decimal.magnitude < 10 ^ (311 : ℤ) := by
  have finite : x.code < infinityCode := of_decide_eq_true finite
  rw [Decimal.toBinary64_eq coefficient] at reads
  constructor
  · by_contra small
    rw [nearestCode_small (Decimal.magnitude_pos coefficient) (not_le.mp small)] at reads
    rw [← reads, code_ofCode (by decide)] at nonzero
    exact nonzero rfl
  · by_contra large
    rw [nearestCode_large (not_lt.mp large)] at reads
    rw [← reads, code_ofCode (by decide)] at finite
    exact lt_irrefl _ finite

end TypedJson.Binary64
