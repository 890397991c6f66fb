import Mathlib.Data.Nat.Digits.Defs
import TypedJson.Proofs.Grammar.Value
import TypedJson.Proofs.Reader.Token

/-! Integers of any length, read with words of a fixed width. The digits are gathered in a word that
is wider than every type; where they do not fit it, the sign alone tells on which side of the range
the value is. So the value is known exactly or known to be out of range, and no step of the
arithmetic leaves its word. -/
namespace TypedJson

open Grammar

variable {sign digits : List UInt8}

/-- A signed word of 128 bits. -/
abbrev Wide := BitVec 128

/-- The number that decimal digits denote, the last of them the least. -/
def Grammar.magnitude (digits : List UInt8) : Nat :=
  Nat.ofDigits 10 (digits.reverse.map Ascii.digitValue)

/-- The integer that a sign and the digits behind it denote. -/
def Grammar.integerValue (sign digits : List UInt8) : Int :=
  if sign = [] then magnitude digits else -magnitude digits

/-- The parts of an integral number are its sign and its digits. -/
theorem Numeral.parts_integral (isSign : Sign sign) (isWhole : Whole digits) (integral : Bool) :
    isNegative ⟨sign ++ digits, integral⟩ = (sign.head? == some Ascii.minus) ∧
      unsigned ⟨sign ++ digits, integral⟩ = digits := by
  have parts := unsigned_eq isSign isWhole [] integral
  rwa [List.append_nil] at parts

/-- Arithmetic that leaves its word. -/
inductive Overflow where
  /-- A byte below zero is taken for a digit. -/
  | digit
  /-- The negative of the least word is taken. -/
  | negation
  /-- A value is narrowed that is missing or out of range. -/
  | narrowing
deriving DecidableEq, Repr

namespace Wide

variable {n m : Nat} {digit : UInt8} {type : IntegerType}

/-- The product, if a word holds it. -/
def mul? (a b : Wide) : Option Wide := if a.smulOverflow b then none else some (a * b)

/-- The sum, if a word holds it. -/
def add? (a b : Wide) : Option Wide := if a.saddOverflow b then none else some (a + b)

/-- Digits after those that were gathered, or nothing as soon as a word does not hold them. -/
def gather (gathered : Wide) : List UInt8 → Except Overflow (Option Wide)
  | [] => return some gathered
  | digit :: digits =>
    match mul? gathered 10 with
    | none => return none
    | some tens =>
      if digit < Ascii.zero then throw .digit
      else
        match add? tens (BitVec.ofNat 128 (digit - Ascii.zero).toNat) with
        | none => return none
        | some gathered => gather gathered digits

/-- The value of a sign and digits, if a word holds it. -/
def value (text : List UInt8) : Except Overflow (Option Wide) := do
  let negative := text.head? == some Ascii.minus
  match ← gather 0 (if negative then text.tail else text) with
  | none => return none
  | some magnitude =>
    if negative then
      if magnitude.negOverflow then throw .negation else return some (-magnitude)
    else return some magnitude

/-- Whether a value is below the range of a type; one that no word holds is if it is negative. -/
def isBelow (type : IntegerType) (negative : Bool) : Option Wide → Bool
  | none => negative
  | some value => value.slt (BitVec.ofInt 128 type.lowest)

def isAbove (type : IntegerType) (negative : Bool) : Option Wide → Bool
  | none => !negative
  | some value => (BitVec.ofInt 128 type.highest).slt value

/-- The value in its own type. A missing value counts as zero, and so does one out of range; neither
is to be narrowed. -/
def narrow (type : IntegerType) (value : Option Wide) : Except Overflow (BoundedInt type) :=
  let wide := (value.getD 0).toInt
  let held : Option (BoundedInt type) := BoundedInt.ofInt? wide
  if value.isSome && held.isSome then return BoundedInt.narrow wide
  else throw .narrowing

/-! Gathering digits -/

theorem toInt_ofNat (fits : n < 2 ^ 127) : (BitVec.ofNat 128 n).toInt = n := by
  have same : (BitVec.ofNat 128 n).toNat = n := by
    rw [BitVec.toNat_ofNat]
    omega
  rw [BitVec.toInt_eq_toNat_of_lt (by omega), same]

theorem mul?_ofNat (left : n < 2 ^ 127) (right : m < 2 ^ 127) :
    mul? (BitVec.ofNat 128 n) (BitVec.ofNat 128 m) =
      if n * m < 2 ^ 127 then some (BitVec.ofNat 128 (n * m)) else none := by
  have product : (n : Int) * m = (n * m : Nat) := (Nat.cast_mul n m).symm
  rw [mul?, BitVec.smulOverflow, toInt_ofNat left, toInt_ofNat right, product, BitVec.ofNat_mul]
  by_cases fits : n * m < 2 ^ 127
  · rw [if_pos fits, if_neg]
    simp only [Bool.or_eq_true, decide_eq_true_eq]
    omega
  · rw [if_neg fits, if_pos]
    simp only [Bool.or_eq_true, decide_eq_true_eq]
    omega

theorem add?_ofNat (left : n < 2 ^ 127) (right : m < 2 ^ 127) :
    add? (BitVec.ofNat 128 n) (BitVec.ofNat 128 m) =
      if n + m < 2 ^ 127 then some (BitVec.ofNat 128 (n + m)) else none := by
  rw [add?, BitVec.saddOverflow, toInt_ofNat left, toInt_ofNat right, BitVec.ofNat_add]
  by_cases fits : n + m < 2 ^ 127
  · rw [if_pos fits, if_neg]
    simp only [Bool.or_eq_true, decide_eq_true_eq]
    omega
  · rw [if_neg fits, if_pos]
    simp only [Bool.or_eq_true, decide_eq_true_eq]
    omega

/-- The value of digits after others whose value is `n`. -/
def total (n : Nat) (digits : List UInt8) : Nat :=
  digits.foldl (fun value digit => 10 * value + Ascii.digitValue digit) n

theorem le_total (n : Nat) (digits : List UInt8) : n ≤ total n digits := by
  induction digits generalizing n with
  | nil => exact Nat.le_refl n
  | cons digit digits ih =>
    have bound := ih (10 * n + Ascii.digitValue digit)
    change n ≤ total (10 * n + Ascii.digitValue digit) digits
    omega

/-- A digit is not below zero, and its value is the difference. -/
theorem digit_sub (isDigit : Ascii.isDigit digit = true) :
    ¬digit < Ascii.zero ∧ (digit - Ascii.zero).toNat = Ascii.digitValue digit ∧
      Ascii.digitValue digit < 10 := by
  simp only [Ascii.isDigit, Bool.and_eq_true, decide_eq_true_eq, UInt8.le_iff_toNat_le] at isDigit
  have bounds : 48 ≤ digit.toNat ∧ digit.toNat ≤ 57 := isDigit
  have least : Ascii.zero ≤ digit := UInt8.le_iff_toNat_le.mpr bounds.1
  refine ⟨UInt8.not_lt.mpr least, UInt8.toNat_sub_of_le _ _ least, ?_⟩
  rw [Ascii.digitValue]
  omega

/-- Digits are gathered to their exact value if a word holds it, and to nothing otherwise: what
does not fit on the way does not fit in the end. -/
theorem gather_ofNat (isDigit : ∀ digit ∈ digits, Ascii.isDigit digit = true) (fits : n < 2 ^ 127) :
    gather (BitVec.ofNat 128 n) digits =
      .ok (if total n digits < 2 ^ 127 then some (BitVec.ofNat 128 (total n digits)) else none) := by
  induction digits generalizing n with
  | nil =>
    change _ = Except.ok (if n < 2 ^ 127 then some (BitVec.ofNat 128 n) else none)
    rw [if_pos fits]
    rfl
  | cons digit digits ih =>
    obtain ⟨first, isDigit⟩ := List.forall_mem_cons.mp isDigit
    obtain ⟨least, same, small⟩ := digit_sub first
    have more : total n (digit :: digits) = total (10 * n + Ascii.digitValue digit) digits := rfl
    have bound := le_total (10 * n + Ascii.digitValue digit) digits
    have tens : mul? (BitVec.ofNat 128 n) 10 = _ := mul?_ofNat fits (by decide)
    rw [gather, more, tens]
    by_cases shifted : n * 10 < 2 ^ 127
    · have sum := add?_ofNat shifted (Nat.lt_trans small (by decide))
      rw [if_pos shifted]
      dsimp only
      rw [if_neg least, same, sum, Nat.mul_comm n 10]
      by_cases summed : 10 * n + Ascii.digitValue digit < 2 ^ 127
      · rw [if_pos summed]
        exact ih isDigit summed
      · rw [if_neg summed, if_neg (by omega)]
        rfl
    · rw [if_neg shifted, if_neg (by omega)]
      rfl

/-! The value of an integer -/

/-- What is known of a value with a sign: the word that it is or, where none was found, that it is
as far out as words reach on the side of its sign. -/
inductive Known (value : Int) : Bool → Option Wide → Prop where
  | exact {negative : Bool} {wide : Wide} : wide.toInt = value → Known value negative (some wide)
  | below : value ≤ -2 ^ 127 → Known value true none
  | above : 2 ^ 127 ≤ value → Known value false none

theorem total_eq (digits : List UInt8) : total 0 digits = magnitude digits := by
  rw [magnitude, Nat.ofDigits_eq_foldr, List.foldr_map, List.foldr_reverse, total]
  congr 1
  funext value digit
  rw [Nat.add_comm, Nat.cast_id]

/-- The sign tells whether to take the negative, and the digits stand behind it. -/
theorem value_eq (isSign : Sign sign) (isWhole : Whole digits) :
    value (sign ++ digits) = (gather 0 digits >>= fun
      | none => return none
      | some magnitude =>
        if sign.head? == some Ascii.minus then
          if magnitude.negOverflow then throw .negation else return some (-magnitude)
        else return some magnitude) := by
  obtain ⟨negative, unsigned⟩ := Numeral.parts_integral isSign isWhole true
  change ((sign ++ digits).head? == some Ascii.minus) = _ at negative
  change (if (sign ++ digits).head? == some Ascii.minus then (sign ++ digits).tail
    else sign ++ digits) = digits at unsigned
  rw [value, unsigned, negative]

/-- A magnitude that a word holds has a negative that a word holds, so the value is found; one that
no word holds is beyond the least word and the greatest, whichever its sign. -/
theorem value_known (isSign : Sign sign) (isWhole : Whole digits) :
    ∃ result, value (sign ++ digits) = .ok result ∧
      Known (integerValue sign digits) (sign.head? == some Ascii.minus) result := by
  have gathered : gather 0 digits = _ :=
    gather_ofNat (n := 0) (Numeral.whole_isDigit isWhole) (by decide)
  rw [value_eq isSign isWhole, gathered, total_eq]
  by_cases fits : magnitude digits < 2 ^ 127
  · have same := toInt_ofNat fits
    rw [if_pos fits]
    cases isSign with
    | none => exact ⟨_, rfl, .exact same⟩
    | minus =>
      have inside : ¬(BitVec.ofNat 128 (magnitude digits)).negOverflow = true := by
        rw [BitVec.negOverflow, beq_iff_eq, same]
        omega
      refine ⟨_, if_neg inside, .exact ?_⟩
      rw [BitVec.toInt_neg_of_not_negOverflow inside, same]
      rfl
  · rw [if_neg fits]
    cases isSign with
    | none =>
      have far : 2 ^ 127 ≤ (magnitude digits : Int) := by omega
      exact ⟨none, rfl, .above far⟩
    | minus =>
      have far : -(magnitude digits : Int) ≤ -2 ^ 127 := by omega
      exact ⟨none, rfl, .below far⟩

variable {negative : Bool} {v : Int} {result : Option Wide}

theorem toInt_lowest (type : IntegerType) :
    (BitVec.ofInt 128 type.lowest).toInt = type.lowest := by cases type <;> decide

theorem toInt_highest (type : IntegerType) :
    (BitVec.ofInt 128 type.highest).toInt = type.highest := by cases type <;> decide

theorem range_narrower (type : IntegerType) :
    -2 ^ 127 < type.lowest ∧ type.highest < 2 ^ 127 := by cases type <;> decide

theorem Known.isBelow_iff (known : Known v negative result) (type : IntegerType) :
    isBelow type negative result = true ↔ v < type.lowest := by
  cases known with
  | exact same => rw [isBelow, BitVec.slt_iff_toInt_lt, same, toInt_lowest]
  | below far => exact iff_of_true rfl (Int.lt_of_le_of_lt far (range_narrower type).1)
  | above far =>
    have nonpos := type.lowest_le_zero
    exact iff_of_false Bool.false_ne_true (by omega)

theorem Known.isAbove_iff (known : Known v negative result) (type : IntegerType) :
    isAbove type negative result = true ↔ type.highest < v := by
  cases known with
  | exact same => rw [isAbove, BitVec.slt_iff_toInt_lt, same, toInt_highest]
  | below far =>
    have nonneg := type.zero_le_highest
    exact iff_of_false Bool.false_ne_true (by omega)
  | above far => exact iff_of_true rfl (Int.lt_of_lt_of_le (range_narrower type).2 far)

theorem Known.narrow_eq (known : Known v negative result) (low : type.lowest ≤ v)
    (high : v ≤ type.highest) : narrow type result = .ok ⟨v, low, high⟩ := by
  cases known with
  | exact same =>
    have held : BoundedInt.ofInt? v = some ⟨v, low, high⟩ := by
      rw [BoundedInt.ofInt?, dif_pos low, dif_pos high]
    simp only [narrow, Option.getD_some, same, BoundedInt.narrow, held]
    rfl
  | below far => exact absurd (Int.lt_of_le_of_lt far (range_narrower type).1) (Int.not_lt.mpr low)
  | above far => exact absurd (Int.lt_of_lt_of_le (range_narrower type).2 far) (Int.not_lt.mpr high)

end Wide

/-! Integral numbers -/

namespace Grammar

variable {fraction exponent : List UInt8}

/-- The value that the digits of a number are read to is the one they denote. -/
theorem toInt_eq (isSign : Sign sign) (isWhole : Whole digits) (integral : Bool) :
    Numeral.toInt ⟨sign ++ digits, integral⟩ = integerValue sign digits := by
  obtain ⟨negative, unsigned⟩ := Numeral.parts_integral isSign isWhole integral
  have same : Numeral.digitsValue digits = magnitude digits := Wide.total_eq digits
  simp only [Numeral.toInt, negative, unsigned, same]
  cases isSign <;> rfl

theorem integerValue_zero (isSign : Sign sign) : integerValue sign [Ascii.zero] = 0 := by
  cases isSign <;> rfl

/-- A point or an exponent mark makes a number one that is not integral, whatever its value. -/
theorem not_isIntegral {text : List UInt8} (isFraction : Fraction fraction)
    (isExponent : Exponent exponent) (more : fraction ≠ [] ∨ exponent ≠ []) :
    isIntegral (text ++ fraction ++ exponent) = false := by
  cases isExponent with
  | @some mark _ _ marks =>
    refine List.all_eq_false.mpr ⟨mark, by simp, ?_⟩
    rcases marks with rfl | rfl <;> decide
  | none =>
    cases isFraction with
    | none => exact absurd more (by simp)
    | some => exact List.all_eq_false.mpr ⟨Ascii.point, by simp, by decide⟩

/-- An integral number is a sign and digits. -/
theorem exists_of_isIntegral {text : List UInt8} (number : Number text)
    (integral : isIntegral text = true) :
    ∃ sign digits, Sign sign ∧ Whole digits ∧ text = sign ++ digits := by
  obtain @⟨_, exponent, @⟨sign, digits, fraction, isSign, isWhole, isFraction⟩, isExponent⟩ := number
  by_cases more : fraction ≠ [] ∨ exponent ≠ []
  · rw [not_isIntegral isFraction isExponent more] at integral
    contradiction
  · obtain ⟨rfl, rfl⟩ := not_or.mp more |>.imp not_not.mp not_not.mp
    exact ⟨sign, digits, isSign, isWhole, by rw [List.append_nil, List.append_nil]⟩

end Grammar

/-! Reading an integer by words -/

namespace Reader

variable {before middle after : Reader}
  {text space fraction exponent rest : List UInt8}

/-- The error for a number that is no integer, in the kind of the type. -/
def notInteger (type : IntegerType) (start : Nat) : Error :=
  ⟨.schema (if type.signed then .integer else .unsignedInteger), none, start⟩

/-- The error for an integer below the range of the type. -/
def tooSmall (type : IntegerType) (text : List UInt8) (start : Nat) : Error :=
  ⟨SchemaError.belowMinimum,
    some s!"{String.ofList (text.map Char.ofUInt8)} given when {type.lowest} is minimum permitted",
    start⟩

/-- The error for an integer above the range of the type. -/
def tooLarge (type : IntegerType) (text : List UInt8) (start : Nat) : Error :=
  ⟨SchemaError.aboveMaximum,
    some s!"{String.ofList (text.map Char.ofUInt8)} given when {type.highest} is maximum permitted",
    start⟩

/-- Reads an integer with no arithmetic but that of words; where that leaves its word, reading
stops. -/
def integerByWords (type : IntegerType) : ExceptT Overflow Read (BoundedInt type) := do
  let expected : SchemaError := if type.signed then .integer else .unsignedInteger
  let _ ← expect Ascii.startsNumber expected
  let start := (← (get : Read Reader)).offset
  let numeral ← numeral
  if numeral.integral then
    let found ← MonadExcept.ofExcept (Wide.value numeral.text)
    if Wide.isBelow type numeral.isNegative found then
      failAt start SchemaError.belowMinimum
        (some s!"{numeral.spelling} given when {type.lowest} is minimum permitted")
    else if Wide.isAbove type numeral.isNegative found then
      failAt start SchemaError.aboveMaximum
        (some s!"{numeral.spelling} given when {type.highest} is maximum permitted")
    else MonadExcept.ofExcept (Wide.narrow type found)
  else failAt start expected none

theorem run_lift_bind {ε α β : Type} (step : Read α) (k : α → ExceptT ε Read β) :
    (liftM step >>= k : ExceptT ε Read β).run = step >>= fun value => (k value).run :=
  ExceptT.run_bind_lift step k

/-- Words lose nothing: reading by them never stops, and it reads what the exact arithmetic reads. -/
theorem integerByWords_eq (type : IntegerType) (before : Reader) :
    (integerByWords type).run.run before = (Except.ok <$> integer type).run before := by
  rw [integerByWords, integer, run_lift_bind, map_bind, EStateM.run_bind, EStateM.run_bind]
  cases (expect Ascii.startsNumber _).run before with
  | error => rfl
  | ok byte middle =>
    dsimp only
    rw [run_lift_bind, map_bind, run_bind_of_ok run_get, run_bind_of_ok run_get, run_lift_bind,
      map_bind, EStateM.run_bind, EStateM.run_bind]
    cases token : numeral.run middle with
    | error => rfl
    | ok number after =>
      obtain ⟨text, integral⟩ := number
      obtain ⟨number, same, -, -⟩ := numeral_sound token
      dsimp only at number same ⊢
      cases integral with
      | false => rfl
      | true =>
        obtain ⟨sign, digits, isSign, isWhole, rfl⟩ := exists_of_isIntegral number same.symm
        obtain ⟨negative, _⟩ := Numeral.parts_integral isSign isWhole true
        obtain ⟨result, found, known⟩ := Wide.value_known isSign isWhole
        have below := known.isBelow_iff type
        have above := known.isAbove_iff type
        rw [if_pos rfl, if_pos rfl, found, negative, toInt_eq isSign isWhole, MonadExcept.ofExcept,
          pure_bind]
        by_cases low : type.lowest ≤ integerValue sign digits
        · rw [dif_pos low, if_neg (mt below.mp (Int.not_lt.mpr low))]
          by_cases high : integerValue sign digits ≤ type.highest
          · rw [dif_pos high, if_neg (mt above.mp (Int.not_lt.mpr high)), known.narrow_eq low high]
            rfl
          · rw [dif_neg high, if_pos (above.mpr (Int.not_le.mp high))]
            rfl
        · rw [dif_neg low, if_pos (below.mpr (Int.not_le.mp low))]
          rfl

/-- Where a number stands, what is read as an integer is settled by its text. -/
theorem integer_number (type : IntegerType) (isSpace : Space space) (number : Number text)
    (spacePasses : Passes before space middle) (textPasses : Passes middle text after)
    (ends : EndsNumber text after.unread) :
    (integer type).run before =
      if isIntegral text = true then
        let value := Numeral.toInt ⟨text, isIntegral text⟩
        if low : type.lowest ≤ value then
          if high : value ≤ type.highest then .ok ⟨value, low, high⟩ after
          else .error (tooLarge type text middle.offset) after
        else .error (tooSmall type text middle.offset) after
      else .error (notInteger type middle.offset) after := by
  obtain ⟨byte, head, starts, token⟩ := number_begins number
  have first : middle.unread.head? = some byte := by
    rw [textPasses.unread, List.head?_append, head, Option.some_or]
  rw [integer, run_bind_of_ok (expect_complete isSpace spacePasses first token starts),
    run_bind_of_ok run_get, run_bind_of_ok (numeral_complete number textPasses ends)]
  cases isIntegral text with
  | false => rfl
  | true =>
    rw [if_pos rfl, if_pos rfl]
    dsimp only
    split
    case isFalse => rfl
    case isTrue =>
      split
      case isFalse => rfl
      case isTrue => rfl

/-- Where a number stands, an integer is read from its digits alone, however many there are. The
value is given back if the type has it, and else the side is told on which it lies; a fraction or an
exponent is refused for the kind of the type, even where it leaves the value an integer. -/
theorem integer_exact (type : IntegerType) (isSpace : Space space) (isSign : Sign sign)
    (isWhole : Whole digits) (isFraction : Fraction fraction) (isExponent : Exponent exponent)
    (unread : before.unread = space ++ (sign ++ digits ++ fraction ++ exponent ++ rest))
    (ends : EndsNumber (sign ++ digits ++ fraction ++ exponent) rest) :
    let text := sign ++ digits ++ fraction ++ exponent
    let value := integerValue sign digits
    let start := before.offset + space.length
    let after : Reader := ⟨rest, start + text.length, before.depth⟩
    (integerByWords type).run.run before = (Except.ok <$> integer type).run before ∧
      (fraction = [] ∧ exponent = [] →
        (∀ low high, (integer type).run before = .ok ⟨value, low, high⟩ after) ∧
        (digits = [Ascii.zero] → (integer type).run before = .ok .zero after) ∧
        (value < type.lowest →
          (integer type).run before = .error (tooSmall type text start) after) ∧
        (type.highest < value →
          (integer type).run before = .error (tooLarge type text start) after)) ∧
      (fraction ≠ [] ∨ exponent ≠ [] →
        (integer type).run before = .error (notInteger type start) after) := by
  intro text value start after
  have number : Number text := .mk (.mk isSign isWhole isFraction) isExponent
  have spacePasses : Passes before space ⟨text ++ rest, start, before.depth⟩ := ⟨unread, rfl, rfl⟩
  have textPasses : Passes ⟨text ++ rest, start, before.depth⟩ text after := ⟨rfl, rfl, rfl⟩
  have read := integer_number type isSpace number spacePasses textPasses ends
  refine ⟨integerByWords_eq type before, ?_, ?_⟩
  · rintro ⟨rfl, rfl⟩
    have plain : text = sign ++ digits := by
      change sign ++ digits ++ [] ++ [] = _
      rw [List.append_nil, List.append_nil]
    have integral : isIntegral text = true := by
      rw [plain]
      exact NumeralState.isIntegral_of_digits isSign (Numeral.whole_isDigit isWhole)
    have same : Numeral.toInt ⟨text, true⟩ = value := by
      rw [plain]
      exact toInt_eq isSign isWhole true
    rw [if_pos integral, integral, same] at read
    have inRange (low : type.lowest ≤ value) (high : value ≤ type.highest) :
        (integer type).run before = .ok ⟨value, low, high⟩ after := by
      rw [read, dif_pos low, dif_pos high]
    refine ⟨inRange, ?_, ?_, ?_⟩
    · rintro rfl
      have zero : value = 0 := integerValue_zero isSign
      have low : type.lowest ≤ value := zero ▸ type.lowest_le_zero
      have high : value ≤ type.highest := zero ▸ type.zero_le_highest
      simp only [inRange low high, zero]
      rfl
    · intro below
      rw [read, dif_neg (Int.not_le.mpr below)]
    · intro above
      have nonneg := type.lowest_le_zero
      have pos := type.zero_le_highest
      rw [read, dif_pos (by omega), dif_neg (Int.not_le.mpr above)]
  · intro more
    have notIntegral : isIntegral text = false := not_isIntegral isFraction isExponent more
    rw [read, notIntegral]
    rfl

/-- ` -0` is read as an unsigned integer, `1.0` as none; 39 nines, which no word holds, are above a
range or below it as their sign tells. -/
theorem integer_exact_nines :
    (integerByWords .uint8).run.run ⟨[0x20, 0x2d, 0x30], 0, 0⟩ = .ok (.ok .zero) ⟨[], 3, 0⟩ ∧
    (integer .uint64).run ⟨List.replicate 39 0x39, 0, 0⟩ =
      .error (tooLarge .uint64 (List.replicate 39 0x39) 0) ⟨[], 39, 0⟩ ∧
    (integer .int64).run ⟨0x2d :: List.replicate 39 0x39, 0, 0⟩ =
      .error (tooSmall .int64 (0x2d :: List.replicate 39 0x39) 0) ⟨[], 40, 0⟩ ∧
    (integer .int8).run ⟨[0x31, 0x2e, 0x30], 0, 0⟩ = .error (notInteger .int8 0) ⟨[], 3, 0⟩ := by
  have space : Space [0x20] := List.forall_mem_singleton.mpr rfl
  have nines : Whole (List.replicate 39 0x39) := by
    refine .digits rfl fun digit (member : digit ∈ List.replicate 38 0x39) => ?_
    rw [List.eq_of_mem_replicate member]
    rfl
  have one : Whole [0x31] := .digits rfl (List.forall_mem_nil _)
  have point : Fraction [0x2e, 0x30] :=
    .some ⟨List.cons_ne_nil _ _, List.forall_mem_singleton.mpr rfl⟩
  have ends (text : List UInt8) : EndsNumber text [] := fun _ head => nomatch head
  have spaced : (Reader.mk [0x20, 0x2d, 0x30] 0 0).unread =
    [0x20] ++ ([0x2d] ++ [0x30] ++ [] ++ [] ++ []) := rfl
  have positive : (Reader.mk (List.replicate 39 0x39) 0 0).unread =
    [] ++ ([] ++ List.replicate 39 0x39 ++ [] ++ [] ++ []) := rfl
  have negative : (Reader.mk (0x2d :: List.replicate 39 0x39) 0 0).unread =
    [] ++ ([0x2d] ++ List.replicate 39 0x39 ++ [] ++ [] ++ []) := rfl
  have pointed : (Reader.mk [0x31, 0x2e, 0x30] 0 0).unread =
    [] ++ ([] ++ [0x31] ++ [0x2e, 0x30] ++ [] ++ []) := rfl
  refine ⟨?_, ?_, ?_, ?_⟩
  · obtain ⟨words, whole, _⟩ :=
      integer_exact .uint8 space .minus .zero .none .none spaced (ends _)
    obtain ⟨_, zero, _⟩ := whole ⟨rfl, rfl⟩
    rw [words, map_eq_pure_bind, run_bind_of_ok (zero rfl)]
    rfl
  · obtain ⟨_, whole, _⟩ :=
      integer_exact .uint64 .nil .none nines .none .none positive (ends _)
    obtain ⟨_, _, _, above⟩ := whole ⟨rfl, rfl⟩
    exact above (by decide)
  · obtain ⟨_, whole, _⟩ :=
      integer_exact .int64 .nil .minus nines .none .none negative (ends _)
    obtain ⟨_, _, below, _⟩ := whole ⟨rfl, rfl⟩
    exact below (by decide)
  · obtain ⟨_, _, other⟩ :=
      integer_exact .int8 .nil .none one point .none pointed (ends _)
    exact other (.inl (by decide))

end Reader

end TypedJson
