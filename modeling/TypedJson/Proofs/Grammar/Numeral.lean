import TypedJson.Numeral

/-! The grammar of number tokens, told apart from the automaton that finds them. A number is an
optional minus sign, a whole part without needless zeros, then a fraction and an exponent if there
are any. The automaton follows exactly the texts that some number begins with, and accepts exactly
the numbers among them. -/
namespace TypedJson.Grammar

def Digits (text : List UInt8) : Prop := text ≠ [] ∧ ∀ byte ∈ text, Ascii.isDigit byte = true

inductive Sign : List UInt8 → Prop where
  | none : Sign []
  | minus : Sign [Ascii.minus]

inductive Whole : List UInt8 → Prop where
  | zero : Whole [Ascii.zero]
  | digits : Ascii.isNonzeroDigit first = true → (∀ byte ∈ rest, Ascii.isDigit byte = true) →
      Whole (first :: rest)

inductive Fraction : List UInt8 → Prop where
  | none : Fraction []
  | some : Digits digits → Fraction (Ascii.point :: digits)

inductive ExponentSign : List UInt8 → Prop where
  | none : ExponentSign []
  | plus : ExponentSign [Ascii.plus]
  | minus : ExponentSign [Ascii.minus]

inductive Exponent : List UInt8 → Prop where
  | none : Exponent []
  | some : mark = Ascii.lowerE ∨ mark = Ascii.upperE → ExponentSign sign → Digits digits →
      Exponent (mark :: (sign ++ digits))

/-- A number without its exponent. -/
inductive Mantissa : List UInt8 → Prop where
  | mk : Sign sign → Whole whole → Fraction fraction → Mantissa (sign ++ whole ++ fraction)

inductive Number : List UInt8 → Prop where
  | mk : Mantissa mantissa → Exponent exponent → Number (mantissa ++ exponent)

/-- What some number begins with. -/
def BeginsNumber (text : List UInt8) : Prop := ∃ more, Number (text ++ more)

/-- Whether a number is written without fraction and exponent. -/
def isIntegral (text : List UInt8) : Bool :=
  text.all fun byte => byte == Ascii.minus || Ascii.isDigit byte

end TypedJson.Grammar

namespace TypedJson.NumeralState
open Grammar

variable {state following last : NumeralState} {byte : UInt8} {text signs run rest bytes : List UInt8}

/-- The place after all of a text, if the automaton can follow it. -/
def follow (state : NumeralState) : List UInt8 → Option NumeralState
  | [] => some state
  | byte :: rest => (state.next? byte).bind (follow · rest)

theorem follow_append (state : NumeralState) (first second : List UInt8) :
    state.follow (first ++ second) = (state.follow first).bind (·.follow second) := by
  induction first generalizing state with
  | nil => rfl
  | cons byte rest ih =>
    simp only [List.cons_append, follow]
    cases state.next? byte with
    | none => rfl
    | some following => exact ih following

theorem munch_complete (followed : state.follow run = some last)
    (stops : ∀ byte, rest.head? = some byte → last.next? byte = none) :
    state.munch (run ++ rest) = (run, last) := by
  induction run generalizing state with
  | nil =>
    obtain rfl : state = last := Option.some.inj followed
    cases rest with
    | nil => rfl
    | cons byte rest => simp only [List.nil_append, munch, stops byte rfl]
  | cons byte run ih =>
    simp only [follow, Option.bind_eq_some_iff] at followed
    obtain ⟨following, next, followed⟩ := followed
    simp only [List.cons_append, munch, next, ih followed]

theorem munch_sound (munched : state.munch bytes = (run, last)) :
    state.follow run = some last ∧
      ∃ rest, bytes = run ++ rest ∧ ∀ byte, rest.head? = some byte → last.next? byte = none := by
  induction bytes generalizing state run with
  | nil =>
    obtain ⟨rfl, rfl⟩ := Prod.mk.inj munched
    exact ⟨rfl, [], rfl, by simp⟩
  | cons byte bytes ih =>
    rw [munch] at munched
    cases next : state.next? byte with
    | none =>
      simp only [next, Prod.mk.injEq] at munched
      obtain ⟨rfl, rfl⟩ := munched
      refine ⟨rfl, byte :: bytes, rfl, ?_⟩
      rintro _ ⟨⟩
      exact next
    | some following =>
      simp only [next, Prod.mk.injEq] at munched
      obtain ⟨rfl, rfl⟩ := munched
      obtain ⟨followed, rest, same, stops⟩ := ih (rfl : following.munch bytes = _)
      refine ⟨?_, rest, congrArg (byte :: ·) same, stops⟩
      rw [follow, next]
      exact followed

/-- The texts that lead from the start to each place. -/
def Leads : NumeralState → List UInt8 → Prop
  | .start, text => text = []
  | .sign, text => text = [Ascii.minus]
  | .leadingZero, text => ∃ sign, Sign sign ∧ text = sign ++ [Ascii.zero]
  | .whole, text => ∃ sign first rest, Sign sign ∧ Ascii.isNonzeroDigit first = true ∧
      (∀ byte ∈ rest, Ascii.isDigit byte = true) ∧ text = sign ++ first :: rest
  | .point, text => ∃ sign whole, Sign sign ∧ Whole whole ∧ text = sign ++ whole ++ [Ascii.point]
  | .fraction, text => ∃ sign whole digits, Sign sign ∧ Whole whole ∧ Digits digits ∧
      text = sign ++ whole ++ Ascii.point :: digits
  | .mark, text => ∃ mantissa mark, Mantissa mantissa ∧
      (mark = Ascii.lowerE ∨ mark = Ascii.upperE) ∧ text = mantissa ++ [mark]
  | .markSign, text => ∃ mantissa mark sign, Mantissa mantissa ∧
      (mark = Ascii.lowerE ∨ mark = Ascii.upperE) ∧ ExponentSign sign ∧
      text = mantissa ++ mark :: sign
  | .exponent, text => ∃ mantissa mark sign digits, Mantissa mantissa ∧
      (mark = Ascii.lowerE ∨ mark = Ascii.upperE) ∧ ExponentSign sign ∧ Digits digits ∧
      text = mantissa ++ mark :: (sign ++ digits)

theorem leads_afterFraction (mantissa : Mantissa text)
    (next : next?.afterFraction byte = some following) : Leads following (text ++ [byte]) := by
  simp only [next?.afterFraction, Bool.or_eq_true, beq_iff_eq] at next
  split at next
  case isTrue mark =>
    cases Option.some.inj next
    exact ⟨text, byte, mantissa, mark, rfl⟩
  case isFalse => contradiction

theorem leads_afterWhole (sign : Sign signs) (whole : Whole text)
    (next : next?.afterWhole byte = some following) :
    Leads following (signs ++ text ++ [byte]) := by
  rw [next?.afterWhole] at next
  split at next
  case isTrue point =>
    cases Option.some.inj next
    exact ⟨signs, text, sign, whole, by rw [beq_iff_eq.mp point]⟩
  case isFalse =>
    have mantissa := Mantissa.mk sign whole .none
    rw [List.append_nil] at mantissa
    exact leads_afterFraction mantissa next

private theorem digits_append (digits : ∀ b ∈ text, Ascii.isDigit b = true)
    (digit : Ascii.isDigit byte = true) : ∀ b ∈ text ++ [byte], Ascii.isDigit b = true := by
  intro b member
  rcases List.mem_append.mp member with h | h
  · exact digits b h
  · rwa [List.mem_singleton.mp h]

theorem isNonzeroDigit_of_ne (digit : Ascii.isDigit byte = true) (ne : byte ≠ Ascii.zero) :
    Ascii.isNonzeroDigit byte = true := by
  simp only [Ascii.isDigit, Ascii.isNonzeroDigit, Bool.and_eq_true, decide_eq_true_eq,
    UInt8.le_iff_toNat_le] at *
  have : byte.toNat ≠ 48 := fun h => ne (UInt8.toNat_inj.mp h)
  constructor
  · have := digit.1
    simp only [UInt8.reduceToNat] at *
    omega
  · exact digit.2

theorem isDigit_of_isNonzeroDigit (nonzero : Ascii.isNonzeroDigit byte = true) :
    Ascii.isDigit byte = true := by
  simp only [Ascii.isDigit, Ascii.isNonzeroDigit, Bool.and_eq_true, decide_eq_true_eq,
    UInt8.le_iff_toNat_le] at *
  constructor
  · have := nonzero.1
    simp only [UInt8.reduceToNat] at *
    omega
  · exact nonzero.2

/-- After the sign, if there is one, a whole part begins. -/
private theorem leads_whole (sign : Sign signs) (digit : Ascii.isDigit byte = true)
    (ne : byte ≠ Ascii.zero) : Leads .whole (signs ++ [byte]) :=
  ⟨signs, byte, [], sign, isNonzeroDigit_of_ne digit ne, by simp, rfl⟩

/-- The invariant of every run of the automaton: one byte more keeps text and place together. -/
theorem Leads.next (leads : Leads state text) (next : state.next? byte = some following) :
    Leads following (text ++ [byte]) := by
  cases state with
  | start =>
    subst leads
    simp only [next?, beq_iff_eq] at next
    split at next
    case isTrue minus => cases Option.some.inj next; exact congrArg (· :: []) minus
    case isFalse =>
      split at next
      case isTrue zero => cases Option.some.inj next; exact ⟨[], .none, by rw [zero]⟩
      case isFalse ne =>
        split at next
        case isTrue digit => cases Option.some.inj next; exact leads_whole .none digit ne
        case isFalse => contradiction
  | sign =>
    subst leads
    simp only [next?, beq_iff_eq] at next
    split at next
    case isTrue zero => cases Option.some.inj next; exact ⟨[Ascii.minus], .minus, by rw [zero]⟩
    case isFalse ne =>
      split at next
      case isTrue digit => cases Option.some.inj next; exact leads_whole .minus digit ne
      case isFalse => contradiction
  | leadingZero =>
    obtain ⟨signs, sign, rfl⟩ := leads
    exact leads_afterWhole sign .zero next
  | whole =>
    obtain ⟨signs, first, rest, sign, nonzero, digits, rfl⟩ := leads
    simp only [next?] at next
    split at next
    case isTrue digit =>
      cases Option.some.inj next
      exact ⟨signs, first, rest ++ [byte], sign, nonzero, digits_append digits digit, by simp⟩
    case isFalse => exact leads_afterWhole sign (.digits nonzero digits) next
  | point =>
    obtain ⟨signs, whole, sign, valid, rfl⟩ := leads
    simp only [next?] at next
    split at next
    case isTrue digit =>
      cases Option.some.inj next
      exact ⟨signs, whole, [byte], sign, valid, ⟨by simp, by simpa using digit⟩, by simp⟩
    case isFalse => contradiction
  | fraction =>
    obtain ⟨signs, whole, digits, sign, valid, run, rfl⟩ := leads
    simp only [next?] at next
    split at next
    case isTrue digit =>
      cases Option.some.inj next
      exact ⟨signs, whole, digits ++ [byte], sign, valid,
        ⟨by simp, digits_append run.2 digit⟩, by simp⟩
    case isFalse => exact leads_afterFraction (.mk sign valid (.some run)) next
  | mark =>
    obtain ⟨mantissa, mark, valid, marks, rfl⟩ := leads
    simp only [next?, Bool.or_eq_true, beq_iff_eq] at next
    split at next
    case isTrue signs =>
      cases Option.some.inj next
      refine ⟨mantissa, mark, [byte], valid, marks, ?_, by simp⟩
      rcases signs with rfl | rfl
      · exact .plus
      · exact .minus
    case isFalse =>
      split at next
      case isTrue digit =>
        cases Option.some.inj next
        exact ⟨mantissa, mark, [], [byte], valid, marks, .none,
          ⟨by simp, by simpa using digit⟩, by simp⟩
      case isFalse => contradiction
  | markSign =>
    obtain ⟨mantissa, mark, signs, valid, marks, sign, rfl⟩ := leads
    simp only [next?] at next
    split at next
    case isTrue digit =>
      cases Option.some.inj next
      exact ⟨mantissa, mark, signs, [byte], valid, marks, sign,
        ⟨by simp, by simpa using digit⟩, by simp⟩
    case isFalse => contradiction
  | exponent =>
    obtain ⟨mantissa, mark, signs, digits, valid, marks, sign, run, rfl⟩ := leads
    simp only [next?] at next
    split at next
    case isTrue digit =>
      cases Option.some.inj next
      exact ⟨mantissa, mark, signs, digits ++ [byte], valid, marks, sign,
        ⟨by simp, digits_append run.2 digit⟩, by simp⟩
    case isFalse => contradiction

theorem Leads.follow (leads : Leads state text) (followed : state.follow run = some last) :
    Leads last (text ++ run) := by
  induction run generalizing state text with
  | nil =>
    obtain rfl : state = last := Option.some.inj followed
    rwa [List.append_nil]
  | cons byte run ih =>
    simp only [NumeralState.follow, Option.bind_eq_some_iff] at followed
    obtain ⟨following, next, followed⟩ := followed
    have := ih (leads.next next) followed
    rwa [List.append_assoc, List.singleton_append] at this

theorem Leads.number (leads : Leads state text) (accepts : state.accepts = true) :
    Number text := by
  cases state with
  | start | sign | point | mark | markSign => contradiction
  | leadingZero =>
    obtain ⟨signs, sign, rfl⟩ := leads
    simpa using Number.mk (.mk sign .zero .none) .none
  | whole =>
    obtain ⟨signs, first, rest, sign, nonzero, digits, rfl⟩ := leads
    simpa using Number.mk (.mk sign (.digits nonzero digits) .none) .none
  | fraction =>
    obtain ⟨signs, whole, digits, sign, valid, run, rfl⟩ := leads
    simpa using Number.mk (.mk sign valid (.some run)) .none
  | exponent =>
    obtain ⟨mantissa, mark, signs, digits, valid, marks, sign, run, rfl⟩ := leads
    exact .mk valid (.some marks sign run)

theorem isIntegral_of_digits (sign : Sign signs)
    (digits : ∀ b ∈ text, Ascii.isDigit b = true) : Grammar.isIntegral (signs ++ text) = true := by
  simp only [Grammar.isIntegral, List.all_append, Bool.and_eq_true]
  refine ⟨by cases sign <;> rfl, List.all_eq_true.mpr fun b member => ?_⟩
  rw [digits b member, Bool.or_true]

/-- Integral numbers are those that end before a point or an exponent mark is read. -/
theorem Leads.isIntegral (leads : Leads state text) (accepts : state.accepts = true) :
    state.isIntegral = Grammar.isIntegral text := by
  cases state with
  | start | sign | point | mark | markSign => contradiction
  | leadingZero =>
    obtain ⟨signs, sign, rfl⟩ := leads
    exact (isIntegral_of_digits sign (List.forall_mem_singleton.mpr rfl)).symm
  | whole =>
    obtain ⟨signs, first, rest, sign, nonzero, digits, rfl⟩ := leads
    refine (isIntegral_of_digits sign fun b member => ?_).symm
    rcases List.mem_cons.mp member with rfl | member
    · exact isDigit_of_isNonzeroDigit nonzero
    · exact digits b member
  | fraction =>
    obtain ⟨signs, whole, digits, sign, valid, run, rfl⟩ := leads
    exact (List.all_eq_false.mpr ⟨Ascii.point, by simp, by decide⟩).symm
  | exponent =>
    obtain ⟨mantissa, mark, signs, digits, valid, marks, sign, run, rfl⟩ := leads
    refine (List.all_eq_false.mpr ⟨mark, by simp, ?_⟩).symm
    rcases marks with rfl | rfl <;> decide

/-- A place that digits do not leave follows any run of them. -/
theorem follow_digits (stays : ∀ b, Ascii.isDigit b = true → state.next? b = some state)
    (digits : ∀ b ∈ text, Ascii.isDigit b = true) : state.follow text = some state := by
  induction text with
  | nil => rfl
  | cons first rest ih =>
    rw [follow, stays first (digits first List.mem_cons_self), Option.bind_some]
    exact ih fun b member => digits b (List.mem_cons_of_mem _ member)

/-- A place that a digit leaves for one that digits do not leave follows any run of them. -/
theorem follow_run (run : Digits text) (enters : ∀ b, Ascii.isDigit b = true →
    state.next? b = some following)
    (stays : ∀ b, Ascii.isDigit b = true → following.next? b = some following) :
    state.follow text = some following := by
  obtain ⟨nonempty, digits⟩ := run
  obtain ⟨first, rest, rfl⟩ := List.exists_cons_of_ne_nil nonempty
  rw [follow, enters first (digits first List.mem_cons_self), Option.bind_some]
  exact follow_digits stays fun b member => digits b (List.mem_cons_of_mem _ member)

theorem follow_whole (sign : Sign signs) (whole : Whole text) :
    ∃ last, start.follow (signs ++ text) = some last ∧ (last = .leadingZero ∨ last = .whole) := by
  have entered : ∃ state, start.follow signs = some state ∧ (state = .start ∨ state = .sign) := by
    cases sign with
    | none => exact ⟨.start, rfl, .inl rfl⟩
    | minus => exact ⟨.sign, rfl, .inr rfl⟩
  obtain ⟨state, followed, entered⟩ := entered
  rw [follow_append, followed, Option.bind_some]
  cases whole with
  | zero => exact ⟨.leadingZero, by rcases entered with rfl | rfl <;> rfl, .inl rfl⟩
  | @digits first rest nonzero digits =>
    have digit := isDigit_of_isNonzeroDigit nonzero
    have ne_zero : first ≠ Ascii.zero := by rintro rfl; contradiction
    have ne_minus : first ≠ Ascii.minus := by rintro rfl; contradiction
    have next : state.next? first = some .whole := by
      rcases entered with rfl | rfl <;> simp [next?, digit, ne_zero, ne_minus]
    refine ⟨.whole, ?_, .inr rfl⟩
    rw [follow, next, Option.bind_some]
    exact follow_digits (fun b digit => by simp [next?, digit]) digits

theorem follow_mantissa (mantissa : Mantissa text) : ∃ last, start.follow text = some last ∧
    (last = .leadingZero ∨ last = .whole ∨ last = .fraction) := by
  obtain ⟨sign, whole, fraction⟩ := mantissa
  obtain ⟨last, followed, place⟩ := follow_whole sign whole
  cases fraction with
  | none =>
    rw [List.append_nil]
    exact ⟨last, followed, by rcases place with rfl | rfl <;> simp⟩
  | some run =>
    have next : last.next? Ascii.point = some .point := by rcases place with rfl | rfl <;> rfl
    refine ⟨.fraction, ?_, .inr (.inr rfl)⟩
    rw [follow_append, followed, Option.bind_some, follow, next, Option.bind_some]
    exact follow_run run (fun b digit => by simp [next?, digit])
      (fun b digit => by simp [next?, digit])

theorem follow_number (number : Number text) :
    ∃ last, start.follow text = some last ∧ last.accepts = true := by
  obtain ⟨mantissa, exponent⟩ := number
  obtain ⟨last, followed, place⟩ := follow_mantissa mantissa
  cases exponent with
  | none =>
    rw [List.append_nil]
    exact ⟨last, followed, by rcases place with rfl | rfl | rfl <;> rfl⟩
  | @some mark _ digits marks sign run =>
    have next : last.next? mark = some .mark := by
      rcases place with rfl | rfl | rfl <;> rcases marks with rfl | rfl <;> rfl
    refine ⟨.exponent, ?_, rfl⟩
    rw [follow_append, followed, Option.bind_some, follow, next, Option.bind_some, follow_append]
    have stays : ∀ b, Ascii.isDigit b = true → exponent.next? b = some exponent :=
      fun b digit => by simp [next?, digit]
    cases sign with
    | none =>
      refine follow_run run (fun b digit => ?_) stays
      have ne_plus : b ≠ Ascii.plus := by rintro rfl; exact nomatch digit
      have ne_minus : b ≠ Ascii.minus := by rintro rfl; exact nomatch digit
      simp [next?, digit, ne_plus, ne_minus]
    | plus | minus => exact follow_run run (fun b digit => by simp [next?, digit]) stays

/-- From every place a number can be finished. -/
theorem exists_follow_accepts (state : NumeralState) :
    ∃ more last, state.follow more = some last ∧ last.accepts = true := by
  cases state with
  | start | sign => exact ⟨[Ascii.zero], .leadingZero, rfl, rfl⟩
  | point => exact ⟨[Ascii.zero], .fraction, rfl, rfl⟩
  | mark | markSign => exact ⟨[Ascii.zero], .exponent, rfl, rfl⟩
  | leadingZero => exact ⟨[], .leadingZero, rfl, rfl⟩
  | whole => exact ⟨[], .whole, rfl, rfl⟩
  | fraction => exact ⟨[], .fraction, rfl, rfl⟩
  | exponent => exact ⟨[], .exponent, rfl, rfl⟩

/-- The automaton follows exactly what some number begins with. -/
theorem beginsNumber_iff : BeginsNumber text ↔ ∃ state, start.follow text = some state := by
  constructor
  · rintro ⟨more, number⟩
    obtain ⟨last, followed, _⟩ := follow_number number
    rw [follow_append, Option.bind_eq_some_iff] at followed
    obtain ⟨state, followed, _⟩ := followed
    exact ⟨state, followed⟩
  · rintro ⟨state, followed⟩
    obtain ⟨more, last, finished, accepts⟩ := exists_follow_accepts state
    have leads : Leads .start [] := rfl
    have all : start.follow (text ++ more) = some last := by
      rw [follow_append, followed, Option.bind_some, finished]
    exact ⟨more, (leads.follow all).number accepts⟩

end TypedJson.NumeralState

namespace TypedJson.Grammar

/-- Whether nothing of `rest` could be read as more of the number `text`. -/
def EndsNumber (text rest : List UInt8) : Prop :=
  ∀ byte, rest.head? = some byte → ¬BeginsNumber (text ++ [byte])

variable {text rest bytes : List UInt8} {numeral : Numeral}

theorem next_eq_none_iff {state : NumeralState}
    (followed : NumeralState.start.follow text = some state) (byte : UInt8) :
    state.next? byte = none ↔ ¬BeginsNumber (text ++ [byte]) := by
  rw [NumeralState.beginsNumber_iff, NumeralState.follow_append, followed, Option.bind_some]
  cases next : state.next? byte <;> simp [NumeralState.follow, next]

theorem scan_sound (scanned : Numeral.scan bytes = .ok numeral) :
    Number numeral.text ∧ numeral.integral = isIntegral numeral.text ∧
      ∃ rest, bytes = numeral.text ++ rest ∧ EndsNumber numeral.text rest := by
  simp only [Numeral.scan] at scanned
  split at scanned
  case isFalse => contradiction
  case isTrue accepts =>
    cases Except.ok.inj scanned
    obtain ⟨followed, rest, same, stops⟩ := NumeralState.munch_sound
      (rfl : NumeralState.start.munch bytes = _)
    have leads : NumeralState.Leads .start [] := rfl
    have reached := leads.follow followed
    exact ⟨reached.number accepts, reached.isIntegral accepts, rest, same,
      fun byte head => (next_eq_none_iff followed byte).mp (stops byte head)⟩

theorem scan_error {distance : Nat} (scanned : Numeral.scan bytes = .error distance) :
    distance ≤ bytes.length := by
  simp only [Numeral.scan] at scanned
  split at scanned
  case isTrue => contradiction
  case isFalse =>
    obtain ⟨_, rest, same, _⟩ := NumeralState.munch_sound
      (rfl : NumeralState.start.munch bytes = _)
    have length := congrArg List.length same
    rw [List.length_append] at length
    rw [← Except.error.inj scanned, length]
    exact Nat.le_add_right ..

theorem scan_complete (number : Number text) (ends : EndsNumber text rest) :
    Numeral.scan (text ++ rest) = .ok ⟨text, isIntegral text⟩ := by
  obtain ⟨last, followed, accepts⟩ := NumeralState.follow_number number
  have leads : NumeralState.Leads .start [] := rfl
  have integral := (leads.follow followed).isIntegral accepts
  have munched := NumeralState.munch_complete followed
    fun byte (head : rest.head? = some byte) => (next_eq_none_iff followed byte).mpr (ends byte head)
  simp only [Numeral.scan, munched, accepts, if_true, integral, List.nil_append]

/-- A byte that a finished number can go on with. -/
def continuesNumber (byte : UInt8) : Bool :=
  Ascii.isDigit byte || byte == Ascii.point || byte == Ascii.lowerE || byte == Ascii.upperE

theorem endsNumber_of_not_continues (number : Number text)
    (outside : ∀ byte, rest.head? = some byte → continuesNumber byte = false) :
    EndsNumber text rest := by
  intro byte head
  obtain ⟨last, followed, accepts⟩ := NumeralState.follow_number number
  rw [← next_eq_none_iff followed byte]
  have stops := outside byte head
  simp only [continuesNumber, Bool.or_eq_false_iff, beq_eq_false_iff_ne] at stops
  obtain ⟨⟨⟨digit, point⟩, lower⟩, upper⟩ := stops
  have fraction : NumeralState.next?.afterFraction byte = none := by
    simp [NumeralState.next?.afterFraction, lower, upper]
  have whole : NumeralState.next?.afterWhole byte = none := by
    simp [NumeralState.next?.afterWhole, point, fraction]
  cases last with
  | start | sign | point | mark | markSign => contradiction
  | leadingZero => exact whole
  | whole | fraction | exponent => simp [NumeralState.next?, digit, whole, fraction]

end TypedJson.Grammar
