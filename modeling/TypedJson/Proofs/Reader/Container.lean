import Mathlib.Data.List.Forall2
import TypedJson.Proofs.Reader.Token

/-! Arrays and objects. What is inside a container is read one level deeper, so the steps that read
the entries are sound and complete at that depth. An array is the list of its elements; an object
is searched, and the members of other names that a search passes are part of what it reads. -/
namespace TypedJson.Reader
open Grammar

variable {α ρ : Type} {before middle after : Reader} {text rest : List UInt8} {byte : UInt8}
  {limit depth count budget : Nat} {expected : SchemaError} {item : Read α} {skip : Read Unit}
  {language : α → List UInt8 → Prop} {inner : List UInt8 → Prop} {values : List α}
  {texts : List (List UInt8)} {passed members : List (String × List UInt8)} {first last : Bool}
  {names : List String} {name : String}

/-! Opening and closing -/

/-- The reader once one more container is open. -/
def within (reader : Reader) : Reader := { reader with depth := reader.depth + 1 }

theorem enter_iff (head : before.unread.head? = some byte) :
    (enter limit).run before = .ok () after ↔
      before.depth + 1 < limit ∧ ∃ inside, Passes before [byte] inside ∧ after = inside.within := by
  have passes := passes_head head
  change EStateM.run (if limit ≤ before.depth + 1 then fail SchemaError.tooDeep else pure ())
    (before.advance 1).within = _ ↔ _
  split
  case isTrue deep => exact ⟨nofun, fun h => absurd h.1 (by omega)⟩
  case isFalse shallow =>
    constructor
    · intro entered
      exact ⟨by omega, _, passes, (EStateM.Result.ok.inj entered).2.symm⟩
    · rintro ⟨_, inside, passes, rfl⟩
      rw [passes.eq_advance]
      rfl

theorem opens_sound (read : (expect (· == byte) expected >>= fun _ => enter limit).run before =
    .ok () after) : before.depth + 1 < limit ∧ ∃ space inside, Space space ∧
      Passes before (space ++ [byte]) inside ∧ after = inside.within := by
  obtain ⟨found, middle, bracket, entered⟩ := run_bind_ok read
  obtain ⟨space, isSpace, passes, head, accepted⟩ := expect_sound bracket
  rw [beq_iff_eq.mp accepted] at head
  obtain ⟨shallow, inside, bracket, same⟩ := (enter_iff head).mp entered
  rw [passes.depth] at shallow
  exact ⟨shallow, space, inside, isSpace, passes.trans bracket, same⟩

theorem opens_complete (shallow : before.depth + 1 < limit) (space : Space text)
    (passes : Passes before (text ++ [byte]) after) (token : Ascii.isWhitespace byte = false) :
    (expect (· == byte) expected >>= fun _ => enter limit).run before = .ok () after.within := by
  obtain ⟨middle, first, second⟩ := passes.split
  have head : middle.unread.head? = some byte := by rw [second.unread]; rfl
  have bracket : (expect (· == byte) expected).run before = .ok byte middle :=
    expect_complete space first head token (beq_self_eq_true byte)
  rw [run_bind_of_ok bracket, enter_iff head, first.depth]
  exact ⟨shallow, after, second, rfl⟩

/-! Arrays -/

theorem arrayEnds_sound {ended : Bool} (read : (arrayEnds count).run before = .ok ended after) :
    ∃ text, Passes before text after ∧
      (ended = true ∧ (∃ space, Space space ∧ text = space ++ [Ascii.closeBracket]) ∨
        ended = false ∧ Separator (count == 0) text) := by
  obtain ⟨head, middle, peek, read⟩ := run_bind_ok read
  obtain ⟨space, isSpace, passes, head⟩ := peekToken_sound peek
  split at read
  case h_1 => contradiction
  case h_2 byte _ =>
    split at read
    case isTrue closes =>
      obtain ⟨_, last, one, read⟩ := run_bind_ok read
      obtain ⟨rfl, rfl⟩ := EStateM.Result.ok.inj read
      rw [beq_iff_eq.mp closes] at head
      exact ⟨_, passes.trans ((consume_iff head).mp one), .inl ⟨rfl, space, isSpace, rfl⟩⟩
    case isFalse =>
      split at read
      case isTrue none =>
        obtain ⟨rfl, rfl⟩ := EStateM.Result.ok.inj read
        subst none
        exact ⟨_, passes, .inr ⟨rfl, .first isSpace⟩⟩
      case isFalse some =>
        split at read
        case isTrue comma =>
          obtain ⟨_, last, one, read⟩ := run_bind_ok read
          obtain ⟨rfl, rfl⟩ := EStateM.Result.ok.inj read
          rw [beq_iff_eq.mp comma] at head
          rw [beq_eq_false_iff_ne.mpr some]
          exact ⟨_, passes.trans ((consume_iff head).mp one), .inr ⟨rfl, .next isSpace .nil⟩⟩
        case isFalse => contradiction

theorem arrayEnds_close (space : Space text)
    (passes : Passes before (text ++ [Ascii.closeBracket]) after) :
    (arrayEnds count).run before = .ok true after := by
  obtain ⟨middle, first, second⟩ := passes.split
  have head : middle.unread.head? = some Ascii.closeBracket := by rw [second.unread]; rfl
  rw [arrayEnds, run_bind_of_ok (peekToken_complete space first head rfl)]
  simp only [beq_self_eq_true, if_true]
  rw [run_bind_of_ok ((consume_iff head).mpr second)]
  rfl

/-- Before an element the separator is read, if only up to some of its whitespace. -/
theorem arrayEnds_next {separator : List UInt8} (separates : Separator (count == 0) separator)
    (starts : Starts text) (passes : Passes before (separator ++ text) after) :
    ∃ middle space, (arrayEnds count).run before = .ok false middle ∧ Space space ∧
      Passes middle (space ++ text) after := by
  obtain ⟨byte, head, starts⟩ := starts
  have token := startsValue_token starts
  generalize isFirst : (count == 0) = first at separates
  cases separates with
  | first space =>
    obtain ⟨middle, first, second⟩ := passes.split
    have head : middle.unread.head? = some byte := by
      rw [second.unread, List.head?_append, head, Option.some_or]
    refine ⟨middle, [], ?_, .nil, second⟩
    rw [arrayEnds, run_bind_of_ok (peekToken_complete space first head token)]
    have other : (byte == Ascii.closeBracket) = false := by
      apply beq_eq_false_iff_ne.mpr
      intro same
      rw [same] at starts
      contradiction
    simp only [other, beq_iff_eq.mp isFirst, if_true]
    rfl
  | next spaceBefore spaceAfter =>
    rw [List.append_cons, List.append_assoc] at passes
    obtain ⟨last, passes, rest⟩ := passes.split
    obtain ⟨middle, first, second⟩ := passes.split
    have head : middle.unread.head? = some Ascii.comma := by rw [second.unread]; rfl
    refine ⟨last, _, ?_, spaceAfter, rest⟩
    rw [arrayEnds, run_bind_of_ok (peekToken_complete spaceBefore first head rfl)]
    simp only [beq_eq_false_iff_ne.mp isFirst, beq_self_eq_true, if_true, if_false]
    rw [if_neg (by decide), run_bind_of_ok ((consume_iff head).mpr second)]
    rfl

theorem forall_of_forall₂ {β : Type} {relation : α → β → Prop} {holds : β → Prop} {others : List β}
    (weaker : ∀ value other, relation value other → holds other)
    (each : List.Forall₂ relation values others) : ∀ other ∈ others, holds other := by
  induction each with
  | nil => nofun
  | cons valid _ ih => exact List.forall_mem_cons.mpr ⟨weaker _ _ valid, ih⟩

theorem elementsFrom_sound (sound : Sound item depth language) (same : before.depth = depth)
    (read : (elementsFrom item budget count).run before = .ok values after) :
    ∃ texts text, Elements (count == 0) texts text ∧
      List.Forall₂ language values texts ∧ Passes before text after := by
  induction budget generalizing before count values with
  | zero => contradiction
  | succ budget ih =>
    obtain ⟨ended, middle, ends, read⟩ := run_bind_ok read
    obtain ⟨text, passes, ⟨rfl, space, isSpace, rfl⟩ | ⟨rfl, separates⟩⟩ :=
      arrayEnds_sound ends
    · obtain ⟨rfl, rfl⟩ := EStateM.Result.ok.inj read
      exact ⟨[], _, .close isSpace, .nil, passes⟩
    · obtain ⟨value, next, element, read⟩ := run_bind_ok read
      obtain ⟨following, last, others, read⟩ := run_bind_ok read
      obtain ⟨rfl, rfl⟩ := EStateM.Result.ok.inj read
      obtain ⟨space, valueText, isSpace, valid, crosses, _⟩ :=
        sound (passes.depth.trans same) element
      obtain ⟨texts, rest, valids, eachValid, more⟩ :=
        ih (crosses.depth.trans (passes.depth.trans same)) others
      refine ⟨valueText :: texts, _, .cons (separates.append_space isSpace) valids,
        .cons valid eachValid, ?_⟩
      have whole := (passes.trans crosses).trans more
      rwa [← List.append_assoc] at whole

theorem elementsFrom_complete (complete : Complete item depth language)
    (starts : ∀ value text, language value text → Starts text) (same : before.depth = depth)
    (valids : Elements first texts text) (eachValid : List.Forall₂ language values texts)
    (isFirst : first = (count == 0)) (turns : texts.length < budget)
    (passes : Passes before text after) :
    (elementsFrom item budget count).run before = .ok values after := by
  induction valids generalizing before count values budget with
  | close space =>
    cases eachValid
    obtain ⟨budget, rfl⟩ : ∃ n, budget = n + 1 := ⟨budget - 1, by omega⟩
    rw [elementsFrom, run_bind_of_ok (arrayEnds_close space passes)]
    rfl
  | @cons first separator texts rest element separates valids ih =>
    cases eachValid with
    | @cons value _ values _ valid eachValid =>
      obtain ⟨budget, rfl⟩ : ∃ n, budget = n + 1 := ⟨budget - 1, by omega⟩
      obtain ⟨between, passes, more⟩ := passes.split
      obtain ⟨middle, space, next, isSpace, elementPasses⟩ :=
        arrayEnds_next (isFirst ▸ separates) (starts _ _ valid) passes
      have ends : Ends element between.unread := by
        rw [more.unread]
        exact ends_of_closes valids.closes
      have level : middle.depth = depth := by
        rw [← elementPasses.depth, passes.depth, same]
      have read := complete level ⟨space, element, isSpace, valid, elementPasses, ends⟩
      have isNotFirst : false = (count + 1 == 0) := rfl
      have others := ih (passes.depth.trans same) eachValid isNotFirst
        (Nat.lt_of_succ_lt_succ turns) more
      rw [elementsFrom, run_bind_of_ok next]
      simp only [Bool.false_eq_true, if_false]
      rw [run_bind_of_ok read, run_bind_of_ok others]
      rfl

theorem elements_sound (sound : Sound item depth language) (same : before.depth = depth)
    (read : (elements item).run before = .ok values after) :
    ∃ texts text, Elements true texts text ∧ List.Forall₂ language values texts ∧
      Passes before text after := by
  obtain ⟨_, middle, got, read⟩ := run_bind_ok read
  obtain ⟨rfl, rfl⟩ := EStateM.Result.ok.inj got
  exact elementsFrom_sound sound same read

theorem elements_complete (complete : Complete item depth language)
    (starts : ∀ value text, language value text → Starts text) (same : before.depth = depth)
    (valids : Elements true texts text) (eachValid : List.Forall₂ language values texts)
    (passes : Passes before text after) :
    (elements item).run before = .ok values after := by
  rw [elements, run_bind_of_ok run_get]
  refine elementsFrom_complete complete starts same valids eachValid rfl ?_ passes
  rw [passes.unread, List.length_append]
  have := valids.length_le.1
  omega

/-! Objects -/

theorem nameAndColon_sound (read : nameAndColon.run before = .ok name after) :
    ∃ space token gap, Space space ∧ Grammar.StringToken token name ∧ Space gap ∧
      Passes before (space ++ token ++ gap ++ [Ascii.colon]) after := by
  obtain ⟨head, start, peek, read⟩ := run_bind_ok read
  obtain ⟨space, isSpace, passes, head⟩ := peekToken_sound peek
  split at read
  case isTrue => contradiction
  case isFalse quote =>
    obtain ⟨found, middle, token, read⟩ := run_bind_ok read
    rw [not_not.mp quote] at head
    obtain ⟨token, valid, tokenPasses⟩ := stringToken_sound head token
    obtain ⟨head, last, peek, read⟩ := run_bind_ok read
    obtain ⟨gap, isGap, gapPasses, head⟩ := peekToken_sound peek
    split at read
    case isTrue => contradiction
    case isFalse colon =>
      obtain ⟨_, done, one, read⟩ := run_bind_ok read
      obtain ⟨rfl, rfl⟩ := EStateM.Result.ok.inj read
      rw [not_not.mp colon] at head
      have colonPasses := (consume_iff head).mp one
      exact ⟨space, token, gap, isSpace, valid, isGap,
        ((passes.trans tokenPasses).trans gapPasses).trans colonPasses⟩

theorem nameAndColon_complete {space token gap : List UInt8} (isSpace : Space space)
    (valid : Grammar.StringToken token name) (isGap : Space gap)
    (passes : Passes before (space ++ token ++ gap ++ [Ascii.colon]) after) :
    nameAndColon.run before = .ok name after := by
  obtain ⟨last, passes, colonPasses⟩ := passes.split
  obtain ⟨middle, passes, gapPasses⟩ := passes.split
  obtain ⟨start, passes, tokenPasses⟩ := passes.split
  have quote : start.unread.head? = some Ascii.quote := by
    rw [tokenPasses.unread, List.head?_append, valid.head?, Option.some_or]
  have colon : last.unread.head? = some Ascii.colon := by rw [colonPasses.unread]; rfl
  rw [nameAndColon, run_bind_of_ok (peekToken_complete isSpace passes quote rfl)]
  rw [if_neg (not_not.mpr rfl), run_bind_of_ok (stringToken_complete valid tokenPasses)]
  rw [run_bind_of_ok (peekToken_complete isGap gapPasses colon rfl)]
  rw [if_neg (not_not.mpr rfl), run_bind_of_ok ((consume_iff colon).mpr colonPasses)]
  rfl

theorem memberName_sound {found : Option String}
    (read : (memberName count).run before = .ok found after) : ∃ text, Passes before text after ∧
      (found = none ∧ (∃ space, Space space ∧ text = space ++ [Ascii.closeBrace]) ∨
        ∃ name, found = some name ∧ Heading (count == 0) name text) := by
  obtain ⟨head, start, peek, read⟩ := run_bind_ok read
  obtain ⟨space, isSpace, passes, head⟩ := peekToken_sound peek
  split at read
  case h_1 => contradiction
  case h_2 byte _ =>
    split at read
    case isTrue closes =>
      obtain ⟨_, last, one, read⟩ := run_bind_ok read
      obtain ⟨rfl, rfl⟩ := EStateM.Result.ok.inj read
      rw [beq_iff_eq.mp closes] at head
      exact ⟨_, passes.trans ((consume_iff head).mp one), .inl ⟨rfl, space, isSpace, rfl⟩⟩
    case isFalse =>
      split at read
      case isTrue some =>
        split at read
        case isFalse => contradiction
        case isTrue comma =>
          obtain ⟨_, middle, one, read⟩ := run_bind_ok read
          obtain ⟨name, last, named, read⟩ := run_bind_ok read
          obtain ⟨rfl, rfl⟩ := EStateM.Result.ok.inj read
          rw [beq_iff_eq.mp comma] at head
          obtain ⟨spaceAfter, token, gap, isSpaceAfter, valid, isGap, namePasses⟩ :=
            nameAndColon_sound named
          have whole := (passes.trans ((consume_iff head).mp one)).trans namePasses
          rw [beq_eq_false_iff_ne.mpr some]
          refine ⟨_, ?_, .inr ⟨name, rfl, .mk (.next isSpace isSpaceAfter) valid isGap⟩⟩
          simpa only [List.append_assoc, List.cons_append, List.nil_append] using whole
      case isFalse none =>
        obtain ⟨name, last, named, read⟩ := run_bind_ok read
        obtain ⟨rfl, rfl⟩ := EStateM.Result.ok.inj read
        obtain ⟨more, token, gap, isMore, valid, isGap, namePasses⟩ := nameAndColon_sound named
        have whole := passes.trans namePasses
        rw [not_not.mp none]
        refine ⟨_, ?_, .inr ⟨name, rfl, .mk (.first (isSpace.append isMore)) valid isGap⟩⟩
        simpa only [List.append_assoc] using whole

theorem memberName_close (space : Space text)
    (passes : Passes before (text ++ [Ascii.closeBrace]) after) :
    (memberName count).run before = .ok none after := by
  obtain ⟨middle, first, second⟩ := passes.split
  have head : middle.unread.head? = some Ascii.closeBrace := by rw [second.unread]; rfl
  rw [memberName, run_bind_of_ok (peekToken_complete space first head rfl)]
  simp only [beq_self_eq_true, if_true]
  rw [run_bind_of_ok ((consume_iff head).mpr second)]
  rfl

theorem memberName_next (heading : Heading (count == 0) name text)
    (passes : Passes before text after) : (memberName count).run before = .ok (some name) after := by
  generalize isFirst : (count == 0) = first at heading
  obtain ⟨separates, valid, isGap⟩ := heading
  cases separates with
  | first isSpace =>
    rw [List.append_assoc, List.append_assoc] at passes
    obtain ⟨middle, passes, namePasses⟩ := passes.split
    have head : middle.unread.head? = some Ascii.quote := by
      rw [namePasses.unread, List.append_assoc, List.head?_append, valid.head?, Option.some_or]
    rw [← List.append_assoc] at namePasses
    have named := nameAndColon_complete .nil valid isGap namePasses
    rw [memberName, run_bind_of_ok (peekToken_complete isSpace passes head rfl)]
    simp only [beq_iff_eq.mp isFirst, ne_eq, not_true_eq_false, if_false]
    rw [if_neg (by decide), run_bind_of_ok named]
    rfl
  | next isSpace isSpaceAfter =>
    rw [List.append_assoc, List.append_assoc, List.append_assoc, List.cons_append] at passes
    obtain ⟨middle, passes, rest⟩ := passes.split
    rw [← List.singleton_append] at rest
    obtain ⟨last, commaPasses, namePasses⟩ := rest.split
    have head : middle.unread.head? = some Ascii.comma := by rw [commaPasses.unread]; rfl
    rw [← List.append_assoc, ← List.append_assoc] at namePasses
    have named := nameAndColon_complete isSpaceAfter valid isGap namePasses
    rw [memberName, run_bind_of_ok (peekToken_complete isSpace passes head rfl)]
    simp only [beq_eq_false_iff_ne.mp isFirst, ne_eq, not_false_eq_true, if_true]
    rw [if_neg (by decide), if_pos (beq_self_eq_true _), 
      run_bind_of_ok ((consume_iff head).mpr commaPasses), run_bind_of_ok named]
    rfl

/-- A member that a search for `names` passes: it is none of them, and its value is skipped. -/
def Ignored (names : List String) (inner : List UInt8 → Prop) (member : String × List UInt8) :
    Prop :=
  names.idxOf? member.1 = none ∧ inner member.2

/-- How a search ends: with the object, or past the name it found. -/
inductive Stops (names : List String) (last : Bool) : Option Nat → List UInt8 → Prop where
  | close : Space space → Stops names last none (space ++ [Ascii.closeBrace])
  | found : Heading last known heading → names.idxOf? known = some index →
      Stops names last (some index) heading

variable {found : Option Nat} {tail : List UInt8}

theorem Stops.closes (stops : Stops names false found tail) :
    ∀ byte, (tail ++ rest).head? = some byte → closesEntry byte = true := by
  cases stops with
  | close space =>
    rw [List.append_assoc]
    exact closes_of_space space rfl
  | found heading => exact heading.closes

theorem Passed.closes (isPassed : Passed false passed last text)
    (stops : Stops names last found tail) :
    ∀ byte, (text ++ tail ++ rest).head? = some byte → closesEntry byte = true := by
  cases isPassed with
  | nil => exact stops.closes
  | cons heading =>
    simp only [List.append_assoc]
    exact heading.closes

theorem keyWith_sound (sound : Sound skip depth fun _ => inner) (same : before.depth = depth)
    (read : (keyWith skip names budget count).run before = .ok found after) :
    ∃ passed last text tail, Passed (count == 0) passed last text ∧
      (∀ member ∈ passed, Ignored names inner member) ∧ Stops names last found tail ∧
      Passes before (text ++ tail) after := by
  induction budget generalizing before count with
  | zero => contradiction
  | succ budget ih =>
    obtain ⟨named, middle, header, read⟩ := run_bind_ok read
    obtain ⟨text, passes, ⟨rfl, space, isSpace, rfl⟩ | ⟨name, rfl, heading⟩⟩ :=
      memberName_sound header
    · obtain ⟨rfl, rfl⟩ := EStateM.Result.ok.inj read
      exact ⟨[], _, [], _, .nil, nofun, .close isSpace, passes⟩
    · simp only at read
      split at read
      case h_1 index known =>
        obtain ⟨rfl, rfl⟩ := EStateM.Result.ok.inj read
        exact ⟨[], _, [], _, .nil, nofun, .found heading known, passes⟩
      case h_2 unknown =>
        obtain ⟨_, next, skipped, read⟩ := run_bind_ok read
        have level := passes.depth.trans same
        obtain ⟨space, value, isSpace, valid, crosses, _⟩ := sound level skipped
        obtain ⟨passed, last, rest, tail, isPassed, ignored, stops, more⟩ :=
          ih (crosses.depth.trans level) read
        refine ⟨(name, value) :: passed, last, _, tail, .cons heading isSpace isPassed,
          List.forall_mem_cons.mpr ⟨⟨unknown, valid⟩, ignored⟩, stops, ?_⟩
        have whole := (passes.trans crosses).trans more
        simpa only [List.append_assoc] using whole

theorem keyWith_complete (complete : Complete skip depth fun _ => inner)
    (same : before.depth = depth) (isPassed : Passed first passed last text)
    (isFirst : first = (count == 0)) (ignored : ∀ member ∈ passed, Ignored names inner member)
    (stops : Stops names last found tail) (turns : passed.length < budget)
    (passes : Passes before (text ++ tail) after) :
    (keyWith skip names budget count).run before = .ok found after := by
  obtain ⟨budget, rfl⟩ : ∃ n, budget = n + 1 := ⟨budget - 1, by omega⟩
  induction isPassed generalizing before count budget with
  | nil =>
    cases stops with
    | close isSpace =>
      rw [keyWith, run_bind_of_ok (memberName_close isSpace passes)]
      rfl
    | found heading known =>
      rw [keyWith, run_bind_of_ok (memberName_next (isFirst ▸ heading) passes)]
      simp only [known]
      rfl
  | @cons first name heading space passed last rest value isHeading isSpace isPassed ih =>
    obtain ⟨⟨unknown, valid⟩, ignored⟩ := List.forall_mem_cons.mp ignored
    obtain ⟨budget, rfl⟩ : ∃ n, budget = n + 1 := ⟨budget - 1, by simp at turns; omega⟩
    have turns : passed.length < budget + 1 := Nat.lt_of_succ_lt_succ turns
    simp only [List.append_assoc] at passes
    obtain ⟨middle, headingPasses, passes⟩ := passes.split
    rw [← List.append_assoc] at passes
    obtain ⟨between, valuePasses, more⟩ := passes.split
    have level : middle.depth = depth := headingPasses.depth.trans same
    have ends : Ends value between.unread := by
      rw [more.unread]
      exact ends_of_closes (Passed.closes isPassed stops)
    have skipped : skip.run middle = .ok () between :=
      complete level ⟨space, value, isSpace, valid, valuePasses, ends⟩
    have isNotFirst : false = (count + 1 == 0) := rfl
    have others := ih (valuePasses.depth.trans level) isNotFirst ignored stops more budget turns
    rw [keyWith, run_bind_of_ok (memberName_next (isFirst ▸ isHeading) headingPasses)]
    simp only [unknown]
    rw [run_bind_of_ok skipped, others]

end TypedJson.Reader
