import TypedJson.Proofs.Cursor.Token

/-! Numbers scanned by index, part by part, with a loop for each run of digits. The scan follows the
automaton of number tokens from place to place, so it takes the longest run of bytes that some
number begins with: it succeeds if that run is a number, and else blames the place after the run. -/
namespace TypedJson.Cursor

open Grammar

/-- A number by the place of its first byte and the place after its last one. -/
inductive Lexeme where
  | integer (first last : Nat)
  | float (first last : Nat)
deriving DecidableEq, Repr

variable (document : List UInt8)

/-- The place after the digits that stand from a place on. -/
def digitsFrom (place : Nat) : Nat :=
  if inside : place < document.length then
    if Ascii.isDigit document[place] then digitsFrom (place + 1) else place
  else place
termination_by document.length - place

/-- The place after one digit or more, or the place where the first is missing. -/
def someDigits (place : Nat) : Except Nat Nat :=
  if digitsFrom document place = place then .error place else .ok (digitsFrom document place)

def wholeFrom (place : Nat) : Except Nat Nat :=
  match document[place]? with
  | none => .error place
  | some byte =>
    if byte == Ascii.zero then .ok (place + 1)
    else if Ascii.isNonzeroDigit byte then .ok (digitsFrom document (place + 1))
    else .error place

/-- The place after a fraction, and whether there is one. -/
def fractionFrom (place : Nat) : Except Nat (Nat × Bool) :=
  if document[place]? = some Ascii.point then
    (someDigits document (place + 1)).map fun last => (last, true)
  else .ok (place, false)

/-- The place after an exponent, and whether there is one. -/
def exponentFrom (place : Nat) : Except Nat (Nat × Bool) :=
  if document[place]? = some Ascii.lowerE ∨ document[place]? = some Ascii.upperE then
    let signed := document[place + 1]? = some Ascii.plus ∨ document[place + 1]? = some Ascii.minus
    (someDigits document (if signed then place + 2 else place + 1)).map fun last => (last, true)
  else .ok (place, false)

/-- The place after what may follow the whole part, and whether anything does. -/
def partsFrom (place : Nat) : Except Nat (Nat × Bool) := do
  let (mantissa, pointed) ← fractionFrom document place
  let (last, marked) ← exponentFrom document mantissa
  return (last, pointed || marked)

def numberFrom (place : Nat) : Except Nat (Nat × Bool) := do
  let unsigned := if document[place]? = some Ascii.minus then place + 1 else place
  partsFrom document (← wholeFrom document unsigned)

/-- Scans a number. The cursor moves only if there is one. -/
def scanNumber : Guarded Lexeme := do
  let first := (← get).position
  match numberFrom document first with
  | .ok (last, isFloat) => do
    moveTo last
    return if isFloat then .float first last else .integer first last
  | .error place => failAt place SyntaxError.invalidNumber none

/-- What the automaton makes of the bytes from a place on: the place after the run it can follow,
and whether more than the whole part was read. -/
def followFrom (state : NumeralState) (place : Nat) : Except Nat (Nat × Bool) :=
  let (run, last) := state.munch (document.drop place)
  if last.accepts then .ok (place + run.length, !last.isIntegral) else .error (place + run.length)

variable {document} {place : Nat} {byte : UInt8} {state following : NumeralState}

/-! Runs of digits -/

/-- No digit stands at a place. -/
def NoDigit (document : List UInt8) (place : Nat) : Prop :=
  ∀ byte, document[place]? = some byte → Ascii.isDigit byte = false

theorem digit_cases (document : List UInt8) (place : Nat) :
    (∃ byte, document[place]? = some byte ∧ Ascii.isDigit byte = true) ∨
      NoDigit document place := by
  cases head : document[place]? with
  | none => exact .inr fun byte found => absurd (head.symm.trans found) nofun
  | some byte =>
    cases digit : Ascii.isDigit byte with
    | true => exact .inl ⟨byte, rfl, digit⟩
    | false =>
      refine .inr fun other found => ?_
      obtain rfl := Option.some.inj (head.symm.trans found)
      exact digit

theorem digitsFrom_digit (head : document[place]? = some byte) (digit : Ascii.isDigit byte = true) :
    digitsFrom document place = digitsFrom document (place + 1) := by
  obtain ⟨inside, rfl⟩ := List.getElem?_eq_some_iff.mp head
  rw [digitsFrom, dif_pos inside, if_pos digit]

theorem digitsFrom_other (other : NoDigit document place) :
    digitsFrom document place = place := by
  rw [digitsFrom]
  split
  case isTrue inside =>
    rw [if_neg (by simp [other _ (List.getElem?_eq_getElem inside)])]
  case isFalse => rfl

theorem le_digitsFrom (document : List UInt8) (place : Nat) :
    place ≤ digitsFrom document place := by
  fun_induction digitsFrom document place with
  | case1 place _ _ ih => omega
  | case2 | case3 => exact Nat.le_refl _

theorem digitsFrom_stops (document : List UInt8) (place : Nat) :
    NoDigit document (digitsFrom document place) := by
  fun_induction digitsFrom document place with
  | case1 place _ _ ih => exact ih
  | case2 place inside other =>
    intro byte head
    obtain rfl := Option.some.inj ((List.getElem?_eq_getElem inside).symm.trans head)
    simpa using other
  | case3 place outside =>
    intro byte head
    exact absurd (List.getElem?_eq_some_iff.mp head).1 outside

/-- One digit at least is what the loop passes, or nothing. -/
theorem someDigits_digit (head : document[place]? = some byte)
    (digit : Ascii.isDigit byte = true) :
    someDigits document place = .ok (digitsFrom document (place + 1)) := by
  have passed := le_digitsFrom document (place + 1)
  rw [someDigits, digitsFrom_digit head digit, if_neg (by omega)]

theorem someDigits_other (other : NoDigit document place) :
    someDigits document place = .error place := by
  rw [someDigits, if_pos (digitsFrom_other other)]

theorem someDigits_stops {last : Nat} (passed : someDigits document place = .ok last) :
    NoDigit document last := by
  rw [someDigits] at passed
  split at passed
  case isTrue => contradiction
  case isFalse =>
    obtain rfl := Except.ok.inj passed
    exact digitsFrom_stops document place

/-! The automaton by place -/

theorem followFrom_next (head : document[place]? = some byte)
    (next : state.next? byte = some following) :
    followFrom document state place = followFrom document following (place + 1) := by
  obtain ⟨inside, rfl⟩ := List.getElem?_eq_some_iff.mp head
  simp only [followFrom, List.drop_eq_getElem_cons inside, NumeralState.munch, next,
    List.length_cons, Nat.add_assoc, Nat.add_comm 1]

theorem followFrom_stop
    (stops : ∀ byte, document[place]? = some byte → state.next? byte = none) :
    followFrom document state place =
      if state.accepts then .ok (place, !state.isIntegral) else .error place := by
  have munched : state.munch (document.drop place) = ([], state) := by
    have followed : state.follow [] = some state := rfl
    exact NumeralState.munch_complete followed fun byte head =>
      stops byte (by rwa [← List.head?_drop])
  simp only [followFrom, munched, List.length_nil, Nat.add_zero]

/-- Whether digits keep the automaton where it is. -/
def Loops (state : NumeralState) : Prop :=
  ∀ byte, Ascii.isDigit byte = true → state.next? byte = some state

theorem whole_loops : Loops .whole := fun _ digit => by simp [NumeralState.next?, digit]

theorem fraction_loops : Loops .fraction := fun _ digit => by simp [NumeralState.next?, digit]

theorem exponent_loops : Loops .exponent := fun _ digit => by simp [NumeralState.next?, digit]

theorem followFrom_loop (loops : Loops state) (place : Nat) :
    followFrom document state place = followFrom document state (digitsFrom document place) := by
  fun_induction digitsFrom document place with
  | case1 place inside digit ih =>
    rw [followFrom_next (List.getElem?_eq_getElem inside) (loops _ digit), ih]
  | case2 | case3 => rfl

/-- From a state that takes digits only, one of them leads into a loop. -/
theorem followFrom_someDigits (refuses : state.accepts = false) (loops : Loops following)
    (next : ∀ byte, document[place]? = some byte →
      state.next? byte = if Ascii.isDigit byte then some following else none) :
    followFrom document state place =
      someDigits document place >>= followFrom document following := by
  rcases digit_cases document place with ⟨byte, head, digit⟩ | other
  · have entered : state.next? byte = some following := by rw [next byte head, if_pos digit]
    rw [followFrom_next head entered, someDigits_digit head digit, followFrom_loop loops]
    rfl
  · rw [followFrom_stop fun byte head => by simp [next byte head, other byte head], refuses,
      someDigits_other other]
    rfl

theorem someDigits_exponent (place : Nat) :
    someDigits document place >>= followFrom document .exponent =
      (someDigits document place).map fun last => (last, true) := by
  cases passed : someDigits document place with
  | error => rfl
  | ok last =>
    have other := someDigits_stops passed
    exact followFrom_stop fun byte head => by simp [NumeralState.next?, other byte head]

theorem followFrom_mark (place : Nat) :
    followFrom document .mark place =
      (someDigits document (if document[place]? = some Ascii.plus ∨
        document[place]? = some Ascii.minus then place + 1 else place)).map
          fun last => (last, true) := by
  rw [← someDigits_exponent]
  split
  case isTrue signed =>
    have next : followFrom document .mark place = followFrom document .markSign (place + 1) := by
      rcases signed with head | head
      · exact followFrom_next head rfl
      · exact followFrom_next head rfl
    rw [next]
    exact followFrom_someDigits rfl exponent_loops fun _ _ => rfl
  case isFalse unsigned =>
    refine followFrom_someDigits rfl exponent_loops fun byte head => ?_
    rw [head, Option.some_inj, Option.some_inj, not_or] at unsigned
    simp [NumeralState.next?, unsigned]

/-- What follows the mantissa, from a state that takes a mark there and nothing else. -/
theorem followFrom_exponentFrom (accepts : state.accepts = true)
    (mark : ∀ byte, document[place]? = some byte →
      state.next? byte = NumeralState.next?.afterFraction byte) :
    followFrom document state place = do
      let (last, marked) ← exponentFrom document place
      return (last, !state.isIntegral || marked) := by
  by_cases marked : document[place]? = some Ascii.lowerE ∨ document[place]? = some Ascii.upperE
  · have next : followFrom document state place = followFrom document .mark (place + 1) := by
      rcases marked with head | head
      · exact followFrom_next head (mark _ head)
      · exact followFrom_next head (mark _ head)
    have exponent : exponentFrom document place = followFrom document .mark (place + 1) := by
      rw [exponentFrom, if_pos marked, followFrom_mark]
    rw [exponent, next, followFrom_mark]
    cases someDigits document _ with
    | error => rfl
    | ok last => simp [Except.map, bind, Except.bind, pure, Except.pure]
  · rw [exponentFrom, if_neg marked, followFrom_stop fun byte head => ?_, accepts]
    · simp [bind, Except.bind, pure, Except.pure]
    · rw [not_or, head, Option.some_inj, Option.some_inj] at marked
      rw [mark byte head]
      simp [NumeralState.next?.afterFraction, marked]

/-- What follows the whole part, from a state that takes a point or a mark there only. -/
theorem followFrom_partsFrom (accepts : state.accepts = true) (integral : state.isIntegral = true)
    (parts : ∀ byte, document[place]? = some byte →
      state.next? byte = NumeralState.next?.afterWhole byte) :
    followFrom document state place = partsFrom document place := by
  rw [partsFrom, fractionFrom]
  split
  case isTrue pointed =>
    have next : followFrom document state place =
        someDigits document (place + 1) >>= followFrom document .fraction := by
      rw [followFrom_next pointed (parts _ pointed)]
      exact followFrom_someDigits rfl fraction_loops fun _ _ => rfl
    rw [next]
    cases passed : someDigits document (place + 1) with
    | error => rfl
    | ok last =>
      have other := someDigits_stops passed
      exact followFrom_exponentFrom rfl fun byte head => by
        simp [NumeralState.next?, other byte head]
  case isFalse unpointed =>
    have mark (byte : UInt8) (head : document[place]? = some byte) :
        state.next? byte = NumeralState.next?.afterFraction byte := by
      rw [head, Option.some_inj] at unpointed
      rw [parts byte head]
      simp [NumeralState.next?.afterWhole, unpointed]
    rw [followFrom_exponentFrom accepts mark, integral]
    rfl

/-- The whole part and what follows it, from a state that takes digits there only. -/
theorem followFrom_wholeFrom (refuses : state.accepts = false)
    (whole : ∀ byte, document[place]? = some byte →
      state.next? byte = NumeralState.next? .sign byte) :
    followFrom document state place = wholeFrom document place >>= partsFrom document := by
  rw [wholeFrom]
  cases head : document[place]? with
  | none =>
    rw [followFrom_stop (by simp [head]), refuses]
    rfl
  | some byte =>
    have next := whole byte head
    by_cases zero : byte = Ascii.zero
    · subst zero
      rw [followFrom_next head next]
      exact followFrom_partsFrom rfl rfl fun _ _ => rfl
    · cases digit : Ascii.isDigit byte with
      | true =>
        have nonzero := NumeralState.isNonzeroDigit_of_ne digit zero
        have next : state.next? byte = some .whole := by
          rw [next]
          simp [NumeralState.next?, zero, digit]
        have other := digitsFrom_stops document (place + 1)
        rw [followFrom_next head next, followFrom_loop whole_loops, followFrom_partsFrom rfl rfl
          fun byte head => by simp [NumeralState.next?, other byte head]]
        simp [zero, nonzero, bind, Except.bind]
      | false =>
        have next : state.next? byte = none := by
          rw [next]
          simp [NumeralState.next?, zero, digit]
        have nonzero : ¬Ascii.isNonzeroDigit byte = true := fun nonzero =>
          absurd (NumeralState.isDigit_of_isNonzeroDigit nonzero) (by simp [digit])
        rw [followFrom_stop (by simp [head, next]), refuses]
        simp [zero, nonzero, bind, Except.bind]

/-- The scan finds what the automaton does. -/
theorem numberFrom_eq (document : List UInt8) (place : Nat) :
    numberFrom document place = followFrom document .start place := by
  rw [numberFrom]
  split
  case isTrue head =>
    rw [followFrom_next head (rfl : NumeralState.next? .start Ascii.minus = some .sign)]
    exact (followFrom_wholeFrom rfl fun _ _ => rfl).symm
  case isFalse unsigned =>
    refine (followFrom_wholeFrom rfl fun byte head => ?_).symm
    rw [head, Option.some_inj] at unsigned
    simp [NumeralState.next?, unsigned]

/-! The longest run -/

/-- A run of bytes that `bytes` and some number begin with, no shorter than any other. -/
structure Longest (bytes run : List UInt8) : Prop where
  stands : run <+: bytes
  begins : BeginsNumber run
  longest : ∀ other, other <+: bytes → BeginsNumber other → other.length ≤ run.length

/-- Whether a number has a fraction or an exponent. -/
def IsFloat (run : List UInt8) : Prop :=
  Ascii.point ∈ run ∨ Ascii.lowerE ∈ run ∨ Ascii.upperE ∈ run

instance (run : List UInt8) : Decidable (IsFloat run) := inferInstanceAs (Decidable (_ ∨ _ ∨ _))

variable {bytes run rest other text : List UInt8}

theorem Longest.unique (first : Longest bytes run) (second : Longest bytes other) :
    other = run := by
  have same : other.length = run.length :=
    Nat.le_antisymm (first.longest other second.stands second.begins)
      (second.longest run first.stands first.begins)
  exact (List.prefix_of_prefix_length_le second.stands first.stands
    (Nat.le_of_eq same)).eq_of_length same

theorem BeginsNumber.of_prefix (begins : BeginsNumber text) (stands : run <+: text) :
    BeginsNumber run := by
  obtain ⟨more, rfl⟩ := stands
  obtain ⟨last, number⟩ := begins
  exact ⟨more ++ last, by rwa [← List.append_assoc]⟩

theorem longest_of_ends (begins : BeginsNumber run) (ends : EndsNumber run rest) :
    Longest (run ++ rest) run := by
  refine ⟨List.prefix_append run rest, begins, fun other stands begun => ?_⟩
  by_cases fits : other.length ≤ run.length
  · exact fits
  · cases rest with
    | nil => exact absurd (by simpa using stands.length_le) fits
    | cons byte rest =>
      -- a longer run would go on with the byte after this one
      have further : run ++ [byte] <+: run ++ byte :: rest := ⟨rest, by simp⟩
      have longer : run ++ [byte] <+: other :=
        List.prefix_of_prefix_length_le further stands (by simp; omega)
      exact absurd (BeginsNumber.of_prefix begun longer) (ends byte rfl)

theorem isIntegral_of_number (number : Number text) :
    isIntegral text = true ↔ ¬IsFloat text := by
  constructor
  · intro integral
    have each := List.all_eq_true.mp integral
    rintro (point | lower | upper)
    · exact absurd (each _ point) (by decide)
    · exact absurd (each _ lower) (by decide)
    · exact absurd (each _ upper) (by decide)
  · intro whole
    obtain ⟨⟨sign, digits, fraction⟩, exponent⟩ := number
    cases fraction with
    | some => exact absurd (.inl (by simp)) whole
    | none =>
      cases exponent with
      | some mark => rcases mark with rfl | rfl <;> simp [IsFloat] at whole
      | none =>
        simp only [List.append_nil]
        exact NumeralState.isIntegral_of_digits sign (Numeral.whole_isDigit digits)

/-- The automaton stops after the longest run. -/
theorem exists_munch (bytes : List UInt8) : ∃ run last,
    NumeralState.start.munch bytes = (run, last) ∧ Longest bytes run ∧
      (last.accepts = true ↔ Number run) ∧
      (last.accepts = true → (last.isIntegral = true ↔ ¬IsFloat run)) := by
  obtain ⟨run, last, munched⟩ : ∃ run last, NumeralState.start.munch bytes = (run, last) :=
    ⟨_, _, rfl⟩
  obtain ⟨followed, rest, rfl, stops⟩ := NumeralState.munch_sound munched
  have leads : NumeralState.Leads .start [] := rfl
  have reached : NumeralState.Leads last run := leads.follow followed
  have begins : BeginsNumber run := NumeralState.beginsNumber_iff.mpr ⟨last, followed⟩
  have ends : EndsNumber run rest := fun byte head =>
    (next_eq_none_iff followed byte).mp (stops byte head)
  refine ⟨run, last, munched, longest_of_ends begins ends, ⟨reached.number, fun number => ?_⟩,
    fun accepts => ?_⟩
  · obtain ⟨accepting, finished, accepts⟩ := NumeralState.follow_number number
    rwa [Option.some.inj (followed.symm.trans finished)]
  · rw [reached.isIntegral accepts, isIntegral_of_number (reached.number accepts)]

/-- From every place there is a longest run of bytes that some number begins with. If the run is a
number, it is scanned and no more is, as a float if it has a point or a mark and as an integer
otherwise. If it is none, the place after it is to blame, and the scan has not moved. -/
theorem number_longest (document : List UInt8) (before : Cursor) :
    (∃ run, Longest (document.drop before.position) run) ∧
      ∀ run, Longest (document.drop before.position) run →
        let first := before.position
        let past := first + run.length
        (Number run →
          (scanNumber document).run before =
              .ok (if IsFloat run then .float first past else .integer first past)
                { before with position := past } ∧
            Reader.numeral.run (before.reader document) =
              .ok ⟨run, !decide (IsFloat run)⟩
                (reader document { before with position := past })) ∧
          (¬Number run →
            (scanNumber document).run before =
                .error (.error ⟨SyntaxError.invalidNumber, none, past⟩) before ∧
              Reader.numeral.run (before.reader document) =
                .error ⟨SyntaxError.invalidNumber, none, past⟩ (before.reader document)) := by
  obtain ⟨found, last, munched, longest, accepts, integral⟩ :=
    exists_munch (document.drop before.position)
  refine ⟨⟨found, longest⟩, fun run isLongest => ?_⟩
  obtain rfl := longest.unique isLongest
  intro first past
  have placed : numberFrom document first =
      if last.accepts then .ok (past, !last.isIntegral) else .error past := by
    rw [numberFrom_eq, followFrom, munched]
  have scanned : Numeral.scan (before.reader document).unread =
      if last.accepts then .ok ⟨run, last.isIntegral⟩ else .error run.length := by
    rw [Numeral.scan, unread_reader, munched]
  constructor
  · intro number
    have accepts := accepts.mpr number
    rw [if_pos accepts] at placed scanned
    have kind : last.isIntegral = !decide (IsFloat run) := by
      rw [Bool.eq_iff_iff, integral accepts]
      simp
    rw [kind] at placed scanned
    constructor
    · rw [scanNumber, run_bind_of_ok run_get]
      simp only [first, placed, Bool.not_not, decide_eq_true_eq]
      rfl
    · rw [Reader.numeral, Reader.run_bind_of_ok Reader.run_get, scanned, ← reader_advance]
      rfl
  · intro none
    have refuses : ¬last.accepts = true := fun accepting => none (accepts.mp accepting)
    rw [if_neg refuses] at placed scanned
    constructor
    · rw [scanNumber, run_bind_of_ok run_get]
      simp only [first, placed]
      rfl
    · rw [Reader.numeral, Reader.run_bind_of_ok Reader.run_get, scanned]
      rfl

end TypedJson.Cursor
