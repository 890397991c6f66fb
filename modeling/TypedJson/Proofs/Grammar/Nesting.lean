import Mathlib.Data.List.MinMax
import Mathlib.Order.Nat
import TypedJson.Proofs.Grammar.Document

/-! The containers open at each byte of a text, counted by its brackets alone. Brackets in string
tokens do not count, so the only state of the count is whether a byte stands in a string. The count
over a value of the grammar stays within the levels of the value and comes back to where it was. -/
namespace TypedJson.Grammar

/-- Where a byte stands with regard to string tokens. -/
inductive Place where
  | outside
  | inside
  /-- Right after a backslash inside of one. -/
  | escaped
deriving DecidableEq, Repr

/-- What is known after some bytes: where the next one stands and how many containers are open. -/
structure Count where
  place : Place
  opened : Nat
deriving DecidableEq, Repr

namespace Count

def next (count : Count) (byte : UInt8) : Count :=
  match count.place with
  | .outside =>
    if byte == Ascii.quote then { count with place := .inside }
    else if byte == Ascii.openBracket || byte == Ascii.openBrace then
      { count with opened := count.opened + 1 }
    else if byte == Ascii.closeBracket || byte == Ascii.closeBrace then
      { count with opened := count.opened - 1 }
    else count
  | .inside =>
    if byte == Ascii.quote then { count with place := .outside }
    else if byte == Ascii.backslash then { count with place := .escaped }
    else count
  | .escaped => { count with place := .inside }

/-- The number of containers open after each byte. -/
def depths (count : Count) : List UInt8 → List Nat
  | [] => []
  | byte :: rest => (count.next byte).opened :: (count.next byte).depths rest

end Count

/-- The number of containers open after each byte of a text. -/
def depths (text : List UInt8) : List Nat := Count.depths ⟨.outside, 0⟩ text

/-- The largest number of containers open at once anywhere in a text. -/
def nesting (text : List UInt8) : Nat := (depths text).foldr max 0

example : depths [0x5b, 0x22, 0x5b, 0x22, 0x2c, 0x7b, 0x7d, 0x5d] = [1, 1, 1, 1, 1, 2, 1, 0] := by
  decide

variable {text rest space token : List UInt8} {first last : Bool} {levels : Nat}
  {elements : List (List UInt8)} {members : List (String × List UInt8)} {byte : UInt8}

theorem nesting_le_of_forall (bounded : ∀ opened ∈ depths text, opened ≤ levels) :
    nesting text ≤ levels :=
  List.max_le_of_forall_le _ _ bounded

theorem le_nesting {opened : Nat} (reached : opened ∈ depths text) : opened ≤ nesting text :=
  List.le_max_of_le reached (Nat.le_refl _)

namespace Count

variable {count before middle after : Count} {opened low high low' high' : Nat}

theorem depths_append (count : Count) (first second : List UInt8) :
    count.depths (first ++ second) =
      count.depths first ++ (first.foldl next count).depths second := by
  induction first generalizing count with
  | nil => rfl
  | cons byte first ih => simp [depths, ih]

theorem length_depths (count : Count) (text : List UInt8) :
    (count.depths text).length = text.length := by
  induction text generalizing count with
  | nil => rfl
  | cons byte text ih => simp [depths, ih]

/-- The count at the end of a text is that after its last byte. -/
theorem opened_mem_depths (count : Count) (nonempty : text ≠ []) :
    (text.foldl next count).opened ∈ count.depths text := by
  induction text generalizing count with
  | nil => contradiction
  | cons byte text ih =>
    cases text with
    | nil => simp [depths]
    | cons other text => exact List.mem_cons_of_mem _ (ih _ (List.cons_ne_nil _ _))

/-- Over a text the count goes from one state to another and is within bounds after each byte. -/
def Walks (before : Count) (text : List UInt8) (after : Count) (low high : Nat) : Prop :=
  text.foldl next before = after ∧ ∀ opened ∈ before.depths text, low ≤ opened ∧ opened ≤ high

theorem Walks.nil : Walks before [] before low high := ⟨rfl, nofun⟩

theorem Walks.append (front : Walks before text middle low high)
    (back : Walks middle rest after low high) : Walks before (text ++ rest) after low high := by
  obtain ⟨rfl, bounded⟩ := front
  obtain ⟨rfl, bounded'⟩ := back
  refine ⟨List.foldl_append, fun opened member => ?_⟩
  rw [depths_append, List.mem_append] at member
  exact member.elim (bounded opened) (bounded' opened)

theorem Walks.mono (walks : Walks before text after low high) (lower : low' ≤ low)
    (higher : high ≤ high') : Walks before text after low' high' := by
  refine ⟨walks.1, fun opened member => ?_⟩
  have bounds := walks.2 opened member
  omega

theorem walks_byte (same : before.next byte = after) :
    Walks before [byte] after after.opened after.opened := by
  subst same
  simp [Walks, depths]

/-- Bytes that leave the count as it is. -/
theorem walks_still (still : ∀ byte ∈ text, count.next byte = count) :
    Walks count text count count.opened count.opened := by
  induction text with
  | nil => exact .nil
  | cons byte text ih =>
    obtain ⟨first, still⟩ := List.forall_mem_cons.mp still
    exact (walks_byte first).append (ih still)

/-! Outside of string tokens -/

/-- A byte that neither quotes nor opens nor closes. -/
def isNeutral (byte : UInt8) : Bool :=
  !(byte == Ascii.quote || byte == Ascii.openBracket || byte == Ascii.openBrace ||
    byte == Ascii.closeBracket || byte == Ascii.closeBrace)

theorem walks_neutral (neutral : ∀ byte ∈ text, isNeutral byte = true) :
    Walks ⟨.outside, opened⟩ text ⟨.outside, opened⟩ opened opened := by
  refine walks_still fun byte member => ?_
  have other := neutral byte member
  simp only [isNeutral, Bool.not_eq_true', Bool.or_eq_false_iff] at other
  simp [next, other]

theorem walks_space (isSpace : Space space) :
    Walks ⟨.outside, opened⟩ space ⟨.outside, opened⟩ opened opened := by
  refine walks_neutral fun byte member => ?_
  have isSpace := isSpace byte member
  simp only [Ascii.isWhitespace, Bool.or_eq_true, beq_iff_eq] at isSpace
  rcases isSpace with ((rfl | rfl) | rfl) | rfl <;> rfl

theorem isNeutral_of_isDigit (digit : Ascii.isDigit byte = true) : isNeutral byte = true := by
  by_contra other
  simp only [isNeutral, Bool.not_eq_true', Bool.not_eq_false, Bool.or_eq_true, beq_iff_eq] at other
  rcases other with (((rfl | rfl) | rfl) | rfl) | rfl <;> contradiction

theorem isNeutral_of_number (number : Number text) : ∀ byte ∈ text, isNeutral byte = true := by
  have run {digits : List UInt8} (all : ∀ byte ∈ digits, Ascii.isDigit byte = true) :
      ∀ byte ∈ digits, isNeutral byte = true :=
    fun byte member => isNeutral_of_isDigit (all byte member)
  obtain ⟨⟨sign, whole, fraction⟩, exponent⟩ := number
  simp only [List.forall_mem_append]
  refine ⟨⟨⟨?_, ?_⟩, ?_⟩, ?_⟩
  · cases sign with
    | none => nofun
    | minus => exact List.forall_mem_singleton.mpr rfl
  · cases whole with
    | zero => exact List.forall_mem_singleton.mpr rfl
    | digits nonzero digits =>
      refine List.forall_mem_cons.mpr ⟨?_, run digits⟩
      exact isNeutral_of_isDigit (NumeralState.isDigit_of_isNonzeroDigit nonzero)
  · cases fraction with
    | none => nofun
    | some digits =>
      exact List.forall_mem_cons.mpr ⟨rfl, run digits.2⟩
  · cases exponent with
    | none => nofun
    | some mark sign digits =>
      refine List.forall_mem_cons.mpr ⟨by rcases mark with rfl | rfl <;> rfl, ?_⟩
      refine List.forall_mem_append.mpr ⟨?_, run digits.2⟩
      cases sign with
      | none => nofun
      | plus | minus => exact List.forall_mem_singleton.mpr rfl

/-! String tokens -/

theorem walks_inside (outside : ∀ byte ∈ text, Ascii.isDelimiter byte = false) :
    Walks ⟨.inside, opened⟩ text ⟨.inside, opened⟩ opened opened := by
  refine walks_still fun byte member => ?_
  have other := outside byte member
  simp only [Ascii.isDelimiter, Bool.or_eq_false_iff] at other
  simp [next, other]

theorem walks_escape (letter : UInt8) :
    Walks ⟨.inside, opened⟩ [Ascii.backslash, letter] ⟨.inside, opened⟩ opened opened := by
  have escapes : Walks ⟨.inside, opened⟩ [Ascii.backslash] ⟨.escaped, opened⟩ opened opened :=
    walks_byte rfl
  exact escapes.append (walks_byte rfl)

theorem walks_codeUnit {unit : Nat} (digits : CodeUnit text unit) :
    Walks ⟨.inside, opened⟩ text ⟨.inside, opened⟩ opened opened := by
  have outside {byte : UInt8} {digit : Nat} (read : Hex.digit? byte = some digit) :
      Ascii.isDelimiter byte = false := by
    by_contra delimits
    simp only [Ascii.isDelimiter, Bool.not_eq_false, Bool.or_eq_true, beq_iff_eq] at delimits
    rcases delimits with rfl | rfl <;> contradiction
  obtain ⟨hw, hx, hy, hz⟩ := digits
  apply walks_inside
  simp [outside hw, outside hx, outside hy, outside hz]

theorem walks_spells {char : Char} (spelled : Spells text char) :
    Walks ⟨.inside, opened⟩ text ⟨.inside, opened⟩ opened opened := by
  cases spelled with
  | plain isPlain =>
    exact walks_inside fun byte member => (StringToken.isPlain_iff.mp isPlain byte member).1
  | escape escaped =>
    cases escaped with
    | letter => exact walks_escape _
    | unit digits => exact (walks_escape _).append (walks_codeUnit digits)
    | pair digits _ _ digits' =>
      exact ((walks_escape _).append (walks_codeUnit digits)).append
        ((walks_escape _).append (walks_codeUnit digits'))

theorem walks_characters {chars : List Char} (spelled : Characters text chars) :
    Walks ⟨.inside, opened⟩ text ⟨.inside, opened⟩ opened opened := by
  induction spelled with
  | nil => exact .nil
  | cons first _ ih => exact (walks_spells first).append ih

theorem walks_string {value : String} (valid : Grammar.StringToken token value) :
    Walks ⟨.outside, opened⟩ token ⟨.outside, opened⟩ opened opened := by
  obtain ⟨spelled⟩ := valid
  have quoted : Walks ⟨.outside, opened⟩ [Ascii.quote] ⟨.inside, opened⟩ opened opened :=
    walks_byte rfl
  exact quoted.append ((walks_characters spelled).append (walks_byte rfl))

theorem walks_scalar (scalar : Scalar text) :
    Walks ⟨.outside, opened⟩ text ⟨.outside, opened⟩ opened opened := by
  cases scalar with
  | true | false | null => exact walks_neutral (List.all_eq_true.mp (by decide))
  | number number => exact walks_neutral (isNeutral_of_number number)
  | string token => exact walks_string token

/-! Containers. Their entries are walked one level up, and the closing bracket leads back. -/

theorem walks_separator (separates : Separator first text) :
    Walks ⟨.outside, opened⟩ text ⟨.outside, opened⟩ opened opened := by
  cases separates with
  | first isSpace => exact walks_space isSpace
  | next isSpace isSpace' =>
    have comma : Walks ⟨.outside, opened⟩ [Ascii.comma] ⟨.outside, opened⟩ opened opened :=
      walks_byte rfl
    exact (walks_space isSpace).append (comma.append (walks_space isSpace'))

theorem walks_heading {name : String} (heading : Heading first name text) :
    Walks ⟨.outside, opened⟩ text ⟨.outside, opened⟩ opened opened := by
  obtain ⟨separates, token, isSpace⟩ := heading
  exact (((walks_separator separates).append (walks_string token)).append
    (walks_space isSpace)).append (walks_byte rfl)

theorem walks_elements (valids : Elements first elements text) (room : opened < high)
    (each : ∀ element ∈ elements,
      Walks ⟨.outside, opened + 1⟩ element ⟨.outside, opened + 1⟩ (opened + 1) high) :
    Walks ⟨.outside, opened + 1⟩ text ⟨.outside, opened⟩ opened high := by
  induction valids with
  | close isSpace =>
    have closes : Walks ⟨.outside, opened + 1⟩ [Ascii.closeBracket] ⟨.outside, opened⟩
      opened opened := walks_byte rfl
    exact ((walks_space isSpace).mono (Nat.le_succ _) room).append
      (closes.mono (Nat.le_refl _) (Nat.le_of_lt room))
  | cons separates _ ih =>
    obtain ⟨element, others⟩ := List.forall_mem_cons.mp each
    have front := ((walks_separator separates).mono (Nat.le_refl _) room).append element
    exact (front.mono (Nat.le_succ _) (Nat.le_refl _)).append (ih others)

theorem walks_passed (passed : Passed first members last text) (room : opened ≤ high)
    (each : ∀ member ∈ members,
      Walks ⟨.outside, opened⟩ member.2 ⟨.outside, opened⟩ opened high) :
    Walks ⟨.outside, opened⟩ text ⟨.outside, opened⟩ opened high := by
  induction passed with
  | nil => exact .nil
  | cons heading isSpace _ ih =>
    obtain ⟨member, others⟩ := List.forall_mem_cons.mp each
    have front := ((walks_heading heading).append (walks_space isSpace)).mono (Nat.le_refl _) room
    exact (front.append member).append (ih others)

theorem walks_members (valids : Members first members text) (room : opened < high)
    (each : ∀ member ∈ members,
      Walks ⟨.outside, opened + 1⟩ member.2 ⟨.outside, opened + 1⟩ (opened + 1) high) :
    Walks ⟨.outside, opened + 1⟩ text ⟨.outside, opened⟩ opened high := by
  rw [← List.append_nil members] at valids
  obtain ⟨_, _, _, rfl, passed, ⟨isSpace⟩⟩ := valids.split
  have closes : Walks ⟨.outside, opened + 1⟩ [Ascii.closeBrace] ⟨.outside, opened⟩
    opened opened := walks_byte rfl
  have front := (walks_passed passed room each).append
    ((walks_space isSpace).mono (Nat.le_refl _) room)
  rw [← List.append_assoc]
  exact (front.mono (Nat.le_succ _) (Nat.le_refl _)).append
    (closes.mono (Nat.le_refl _) (Nat.le_of_lt room))

/-- Over a value the count comes back to where it was and rises by at most the levels. -/
theorem walks_value (value : ValueWithin levels text) (opened : Nat) :
    Walks ⟨.outside, opened⟩ text ⟨.outside, opened⟩ opened (opened + levels) := by
  induction levels generalizing text opened with
  | zero => exact walks_scalar value
  | succ levels ih =>
    have inside {text : List UInt8} (value : ValueWithin levels text) :
        Walks ⟨.outside, opened + 1⟩ text ⟨.outside, opened + 1⟩ (opened + 1)
          (opened + (levels + 1)) := (ih value (opened + 1)).mono (Nat.le_refl _) (by omega)
    have opens {bracket : UInt8} (same : next ⟨.outside, opened⟩ bracket = ⟨.outside, opened + 1⟩) :
        Walks ⟨.outside, opened⟩ [bracket] ⟨.outside, opened + 1⟩ opened (opened + (levels + 1)) :=
      (walks_byte same).mono (Nat.le_succ _) (by simp only; omega)
    cases value with
    | scalar scalar => exact (walks_scalar scalar).mono (Nat.le_refl _) (by omega)
    | array valids each =>
      exact (opens rfl).append
        (walks_elements valids (by omega) fun element listed => inside (each element listed))
    | object valids each =>
      exact (opens rfl).append
        (walks_members valids (by omega) fun member listed => inside (each member listed))

/-! Where a bound is reached -/

/-- The count after the last byte is the bound, and it was below until then. -/
def Climbs (before : Count) (text : List UInt8) (low bound : Nat) : Prop :=
  ∃ front, before.depths text = front ++ [bound] ∧ ∀ opened ∈ front, low ≤ opened ∧ opened < bound

theorem climbs_byte (same : (before.next byte).opened = high) : Climbs before [byte] low high :=
  ⟨[], by simp [depths, same], nofun⟩

theorem Walks.climbs (walks : Walks before text middle low high) (below : high < high')
    (climbs : Climbs middle rest low high') : Climbs before (text ++ rest) low high' := by
  obtain ⟨rfl, bounded⟩ := walks
  obtain ⟨front, same, bounded'⟩ := climbs
  refine ⟨before.depths text ++ front, by rw [depths_append, same, List.append_assoc], ?_⟩
  intro opened member
  rcases List.mem_append.mp member with member | member
  · have bounds := bounded opened member
    omega
  · exact bounded' opened member

theorem Climbs.mono (climbs : Climbs before text low high) (lower : low' ≤ low) :
    Climbs before text low' high := by
  obtain ⟨front, same, bounded⟩ := climbs
  refine ⟨front, same, fun opened member => ?_⟩
  have bounds := bounded opened member
  omega

/-- A text over which the count reaches a bound first is as long as the place of the bound. -/
theorem Climbs.length_eq (climbs : Climbs before text low high) (rest : List UInt8) :
    text.length = (before.depths (text ++ rest)).idxOf high + 1 := by
  obtain ⟨front, same, bounded⟩ := climbs
  have length := congrArg List.length same
  rw [length_depths, List.length_append] at length
  have new : high ∉ front := fun member => Nat.lt_irrefl _ (bounded high member).2
  rw [depths_append, same, List.append_assoc, List.idxOf_append_of_notMem new]
  simpa using length

theorem Climbs.mem_depths (climbs : Climbs before text low high) (rest : List UInt8) :
    high ∈ before.depths (text ++ rest) := by
  obtain ⟨front, same, _⟩ := climbs
  simp [depths_append, same]

/-- The bracket by which the count rises begins a value. -/
theorem Climbs.starts (climbs : Climbs ⟨.outside, opened⟩ text (opened + 1) high)
    (above : opened < high) : Starts text := by
  obtain ⟨front, same, bounded⟩ := climbs
  cases text with
  | nil => simp [depths] at same
  | cons byte text =>
    refine ⟨byte, rfl, ?_⟩
    have risen : opened < (next ⟨.outside, opened⟩ byte).opened := by
      have first : (next ⟨.outside, opened⟩ byte).opened ∈ front ++ [high] := by
        rw [← same]
        exact List.mem_cons_self
      rcases List.mem_append.mp first with earlier | last
      · exact (bounded _ earlier).1
      · rwa [List.mem_singleton.mp last]
    by_cases opens : byte = Ascii.openBracket ∨ byte = Ascii.openBrace
    · rcases opens with rfl | rfl <;> rfl
    · simp only [next, beq_iff_eq, Bool.or_eq_true, opens, if_false] at risen
      split at risen
      · exact absurd risen (Nat.lt_irrefl _)
      · split at risen
        · exact absurd risen (by simp)
        · exact absurd risen (Nat.lt_irrefl _)

end Count

theorem Document.nesting_le (document : Document levels text) : nesting text ≤ levels := by
  obtain ⟨isSpace, value, isSpace'⟩ := document
  have walks := ((Count.walks_space isSpace).mono (Nat.le_refl 0) (Nat.zero_le levels)).append
    ((Count.walks_value value 0).mono (Nat.le_refl 0) (Nat.le_of_eq (Nat.zero_add _)))
  have whole := walks.append
    ((Count.walks_space isSpace').mono (Nat.le_refl 0) (Nat.zero_le levels))
  exact nesting_le_of_forall fun opened member => (whole.2 opened member).2

end TypedJson.Grammar
