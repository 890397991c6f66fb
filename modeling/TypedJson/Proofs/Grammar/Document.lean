import TypedJson.Proofs.Grammar.Numeral
import TypedJson.Proofs.Grammar.StringToken

/-! The grammar of documents. A container is given by its entries in order; the only trace that the
others leave is the comma between them, so the bytes of a container are determined up to the
whitespace around its tokens. Values are layered by the number of containers open at once. -/
namespace TypedJson.Grammar

def Space (text : List UInt8) : Prop := ∀ byte ∈ text, Ascii.isWhitespace byte = true

/-- The values that are single tokens. -/
inductive Scalar : List UInt8 → Prop where
  | true : Scalar (Utf8.encode "true".toList)
  | false : Scalar (Utf8.encode "false".toList)
  | null : Scalar (Utf8.encode "null".toList)
  | number : Number text → Scalar text
  | string : StringToken text value → Scalar text

/-- What stands before an entry of a container; a comma only if it is not the first. -/
inductive Separator : Bool → List UInt8 → Prop where
  | first : Space space → Separator true space
  | next : Space before → Space after → Separator false (before ++ Ascii.comma :: after)

/-- The rest of an array up to and with its closing bracket; `first` says that no element came
before. -/
inductive Elements : Bool → List (List UInt8) → List UInt8 → Prop where
  | close : Space space → Elements first [] (space ++ [Ascii.closeBracket])
  | cons : Separator first separator → Elements false elements rest →
      Elements first (element :: elements) (separator ++ element ++ rest)

/-- All of a member before its value. -/
inductive Heading : Bool → String → List UInt8 → Prop where
  | mk : Separator first separator → StringToken token name → Space space →
      Heading first name (separator ++ token ++ space ++ [Ascii.colon])

/-- The rest of an object up to and with its closing brace, with the names of its members and the
texts of their values. -/
inductive Members : Bool → List (String × List UInt8) → List UInt8 → Prop where
  | close : Space space → Members first [] (space ++ [Ascii.closeBrace])
  | cons : Heading first name heading → Space space → Members false members rest →
      Members first ((name, value) :: members) (heading ++ space ++ value ++ rest)

/-- Members that more of the object follows; `last` says that what follows comes first in it. -/
inductive Passed : Bool → List (String × List UInt8) → Bool → List UInt8 → Prop where
  | nil : Passed first [] first []
  | cons : Heading first name heading → Space space → Passed false members last rest →
      Passed first ((name, value) :: members) last (heading ++ space ++ value ++ rest)

/-- A value, if the values inside it are those of `inner`. -/
inductive ValueOver (inner : List UInt8 → Prop) : List UInt8 → Prop where
  | scalar : Scalar text → ValueOver inner text
  | array : Elements true elements text → (∀ element ∈ elements, inner element) →
      ValueOver inner (Ascii.openBracket :: text)
  | object : Members true members text → (∀ member ∈ members, inner member.2) →
      ValueOver inner (Ascii.openBrace :: text)

/-- A value with at most `levels` containers open at once. -/
def ValueWithin : Nat → List UInt8 → Prop
  | 0 => Scalar
  | levels + 1 => ValueOver (ValueWithin levels)

/-- One value, with at most `levels` containers open at once, and whitespace around it. -/
inductive Document (levels : Nat) : List UInt8 → Prop where
  | mk : Space before → ValueWithin levels text → Space after →
      Document levels (before ++ text ++ after)

variable {first last : Bool} {text rest separator : List UInt8} {levels more : Nat}
  {elements : List (List UInt8)} {members passed : List (String × List UInt8)} {byte : UInt8}

theorem Space.nil : Space [] := by simp [Space]

theorem Space.append (first : Space text) (second : Space rest) : Space (text ++ rest) := by
  intro byte member
  rcases List.mem_append.mp member with h | h
  · exact first byte h
  · exact second byte h

theorem Separator.append_space (separates : Separator first separator) (space : Space text) :
    Separator first (separator ++ text) := by
  cases separates with
  | first before => exact .first (before.append space)
  | next before after =>
    rw [List.append_assoc]
    exact .next before (after.append space)

theorem Passed.append_members (before : Passed first passed last text)
    (after : Members last members rest) : Members first (passed ++ members) (text ++ rest) := by
  induction before with
  | nil => exact after
  | cons heading space _ ih =>
    rw [List.append_assoc]
    exact .cons heading space (ih after)

/-- What stands before the last members of an object are the members before them. -/
theorem Members.split (whole : Members first (passed ++ members) text) :
    ∃ last before after, text = before ++ after ∧ Passed first passed last before ∧
      Members last members after := by
  induction passed generalizing first text with
  | nil => exact ⟨first, [], text, rfl, .nil, whole⟩
  | cons member passed ih =>
    cases whole with
    | cons heading space whole =>
      obtain ⟨last, before, after, rfl, passed, members⟩ := ih whole
      exact ⟨last, _, after, (List.append_assoc ..).symm, .cons heading space passed, members⟩

theorem scalar_within (scalar : Scalar text) : ∀ levels, ValueWithin levels text
  | 0 => scalar
  | _ + 1 => .scalar scalar

theorem ValueOver.imp {inner outer : List UInt8 → Prop} (weaker : ∀ text, inner text → outer text)
    (value : ValueOver inner text) : ValueOver outer text := by
  cases value with
  | scalar scalar => exact .scalar scalar
  | array elements inside => exact .array elements fun element member => weaker _ (inside _ member)
  | object members inside => exact .object members fun member h => weaker _ (inside _ h)

theorem ValueWithin.mono (value : ValueWithin levels text) (le : levels ≤ more) :
    ValueWithin more text := by
  induction levels generalizing more text with
  | zero => exact scalar_within value more
  | succ levels ih =>
    obtain ⟨more, rfl⟩ : ∃ n, more = n + 1 := ⟨more - 1, by omega⟩
    exact ValueOver.imp (fun _ inside => ih inside (by omega)) value

/-! What tokens begin with, and what follows them, is told apart by one byte. -/

/-- Whether a text begins with a byte that a value can begin with. -/
def Starts (text : List UInt8) : Prop :=
  ∃ byte, text.head? = some byte ∧ Ascii.startsValue byte = true

theorem number_starts (number : Number text) :
    ∃ byte, text.head? = some byte ∧ Ascii.startsNumber byte = true := by
  obtain ⟨⟨sign, whole, fraction⟩, exponent⟩ := number
  cases sign with
  | minus => exact ⟨Ascii.minus, rfl, rfl⟩
  | none =>
    cases whole with
    | zero => exact ⟨Ascii.zero, rfl, rfl⟩
    | digits nonzero _ =>
      refine ⟨_, rfl, ?_⟩
      rw [Ascii.startsNumber, NumeralState.isDigit_of_isNonzeroDigit nonzero, Bool.or_true]

theorem Scalar.starts (scalar : Scalar text) : Starts text := by
  cases scalar with
  | true | false | null => exact ⟨_, rfl, rfl⟩
  | number number =>
    obtain ⟨byte, head, starts⟩ := number_starts number
    exact ⟨byte, head, by simp [Ascii.startsValue, starts]⟩
  | string token => exact ⟨_, token.head?, rfl⟩

theorem ValueWithin.starts (value : ValueWithin levels text) : Starts text := by
  cases levels with
  | zero => exact Scalar.starts value
  | succ levels =>
    cases value with
    | scalar scalar => exact scalar.starts
    | array | object => exact ⟨_, rfl, rfl⟩

/-- Nothing of `rest` could be read as more of the token `text`: only numbers can go on. -/
def Ends (text rest : List UInt8) : Prop := Number text → EndsNumber text rest

/-- What can follow an entry of a container. -/
def closesEntry (byte : UInt8) : Bool :=
  Ascii.isWhitespace byte || byte == Ascii.comma || byte == Ascii.closeBracket ||
    byte == Ascii.closeBrace

theorem ends_of_closes (closes : ∀ byte, rest.head? = some byte → closesEntry byte = true) :
    Ends text rest := by
  refine fun number => endsNumber_of_not_continues number fun byte head => ?_
  have := closes byte head
  simp only [closesEntry, Ascii.isWhitespace, Bool.or_eq_true, beq_iff_eq] at this
  rcases this with (((((rfl | rfl) | rfl) | rfl) | rfl) | rfl) | rfl <;> rfl

theorem ends_of_space (space : Space rest) : Ends text rest := by
  apply ends_of_closes
  intro byte head
  rw [closesEntry, space byte (List.mem_of_head? head)]
  rfl

theorem closes_of_space {close : UInt8} (space : Space text)
    (closes : closesEntry close = true) :
    ∀ byte, (text ++ close :: rest).head? = some byte → closesEntry byte = true := by
  intro byte head
  cases text with
  | nil => rwa [← Option.some.inj head]
  | cons other text =>
    rw [← Option.some.inj head, closesEntry, space other List.mem_cons_self]
    rfl

theorem Separator.closes (separates : Separator false separator) :
    ∀ byte, (separator ++ rest).head? = some byte → closesEntry byte = true := by
  cases separates with
  | next before =>
    rw [List.append_assoc]
    exact closes_of_space before rfl

theorem Elements.closes (after : Elements false elements text) :
    ∀ byte, (text ++ rest).head? = some byte → closesEntry byte = true := by
  cases after with
  | close space =>
    rw [List.append_assoc]
    exact closes_of_space space rfl
  | cons separates =>
    rw [List.append_assoc, List.append_assoc]
    exact separates.closes

theorem Heading.closes {name : String} (heading : Heading false name text) :
    ∀ byte, (text ++ rest).head? = some byte → closesEntry byte = true := by
  obtain ⟨separates, _, _⟩ := heading
  simp only [List.append_assoc]
  exact separates.closes

theorem Members.closes (after : Members false members text) :
    ∀ byte, (text ++ rest).head? = some byte → closesEntry byte = true := by
  cases after with
  | close space =>
    rw [List.append_assoc]
    exact closes_of_space space rfl
  | cons heading =>
    simp only [List.append_assoc]
    exact heading.closes

/-! Every turn of a loop over a container takes at least a byte, so bytes bound the turns. -/

theorem Elements.length_le (elements : Elements first entries text) :
    entries.length ≤ text.length ∧ (first = false → entries.length < text.length) := by
  induction elements with
  | close => simp
  | cons separates _ ih =>
    have shorter := ih.2 rfl
    simp only [List.length_cons, List.length_append]
    cases separates with
    | first => exact ⟨by omega, nofun⟩
    | next => simp only [List.length_append, List.length_cons]; omega

theorem Members.length_lt (members : Members first entries text) :
    entries.length < text.length := by
  induction members with
  | close => simp
  | cons heading _ _ ih =>
    obtain ⟨_, _, _⟩ := heading
    simp only [List.length_cons, List.length_append]
    omega

end TypedJson.Grammar
