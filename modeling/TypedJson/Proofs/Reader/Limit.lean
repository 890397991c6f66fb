import TypedJson.Proofs.Grammar.Nesting
import TypedJson.Proofs.Reader.Record
import TypedJson.Proofs.Reader.Unambiguous

/-! Runs that differ in the depth limit alone. Both take the same steps until the narrower limit
refuses a bracket. The text up to that bracket is the first over which as many containers are open
as the limit refuses, so it is found by counting brackets. -/
namespace TypedJson.Reader
open Grammar

variable {α β ρ : Type} {start before middle after : Reader} {text front rest : List UInt8}
  {byte : UInt8} {expected : SchemaError} {narrow wide limit depth budget count : Nat}
  {item item' : Read α} {inner inner' : Read Unit} {names : List String}
  {blame blame' : List UInt8 → Prop}

/-- A run stopped right after the bracket of a container that was one too many; `blame` tells the
texts that may end there. -/
def Refuses (blame : List UInt8 → Prop) (start : Reader) (result : EStateM.Result Error Reader α) :
    Prop :=
  ∃ text rest last, blame text ∧ start.unread = text ++ rest ∧
    result = .error ⟨SchemaError.tooDeep, none, start.offset + text.length⟩ last

/-- Two runs come to the same, unless the first refuses a bracket. -/
def Agree (blame : List UInt8 → Prop) (start : Reader) (item item' : Read α) : Prop :=
  item.run start = item'.run start ∨ Refuses blame start (item.run start)

theorem Agree.imp (agree : Agree blame start item item')
    (weaker : ∀ text, blame text → blame' text) : Agree blame' start item item' := by
  rcases agree with same | ⟨text, rest, last, blamed, unread, failed⟩
  · exact .inl same
  · exact .inr ⟨text, rest, last, weaker text blamed, unread, failed⟩

/-- Runs that agree from a later reader on, as seen from the reader they began with. -/
theorem Agree.later (agree : Agree blame' middle item item')
    (unread : start.unread = front ++ middle.unread)
    (offset : middle.offset = start.offset + front.length)
    (weaker : ∀ text, blame' text → blame (front ++ text)) :
    item.run middle = item'.run middle ∨ Refuses blame start (item.run middle) := by
  rcases agree with same | ⟨text, rest, last, blamed, more, failed⟩
  · exact .inl same
  · refine .inr ⟨front ++ text, rest, last, weaker text blamed, ?_, ?_⟩
    · rw [unread, more, List.append_assoc]
    · rw [failed, offset, List.length_append, Nat.add_assoc]

theorem Agree.bind {k k' : α → Read β} (first : Agree blame start item item')
    (following : ∀ value middle, item.run start = .ok value middle →
      (k value).run middle = (k' value).run middle ∨ Refuses blame start ((k value).run middle)) :
    Agree blame start (item >>= k) (item' >>= k') := by
  rcases first with same | ⟨text, rest, last, blamed, unread, failed⟩
  · cases run : item.run start with
    | error error last => exact .inl (by simp [EStateM.run_bind, ← same, run])
    | ok value middle =>
      have run' : item'.run start = .ok value middle := same ▸ run
      rw [Agree, run_bind_of_ok run, run_bind_of_ok run']
      exact following value middle run
  · exact .inr ⟨text, rest, last, blamed, unread, by rw [EStateM.run_bind, failed]⟩

theorem Agree.get {k k' : Reader → Read α} (agree : Agree blame start (k start) (k' start)) :
    Agree blame start (get >>= k) (get >>= k') := agree

/-! What is blamed -/

/-- The text by which a value, read at a depth, first has one container too many open: whitespace,
and the value up to a bracket. -/
def Exceeds (limit depth : Nat) (text : List UInt8) : Prop :=
  ∃ space rise, text = space ++ rise ∧ Space space ∧
    Count.Climbs ⟨.outside, depth⟩ rise (depth + 1) (max limit (depth + 1))

/-- The same from anywhere between the entries of an open container. -/
def Overfills (limit depth : Nat) (text : List UInt8) : Prop :=
  Count.Climbs ⟨.outside, depth⟩ text depth limit

/-- At a depth two steps differ only in what the first refuses for the limit. -/
def Limits (limit depth : Nat) (item item' : Read α) : Prop :=
  ∀ ⦃before⦄, before.depth = depth → Agree (Exceeds limit depth) before item item'

theorem Exceeds.climbs (exceeds : Exceeds limit depth text) :
    Count.Climbs ⟨.outside, depth⟩ text depth (max limit (depth + 1)) := by
  obtain ⟨space, rise, rfl, isSpace, climbs⟩ := exceeds
  exact (Count.walks_space isSpace).climbs (Nat.le_max_right ..) (climbs.mono (Nat.le_succ depth))

theorem Exceeds.overfills (exceeds : Exceeds limit depth text) (shallow : depth < limit) :
    Overfills limit depth text := by
  have climbs := exceeds.climbs
  rwa [Nat.max_eq_left shallow] at climbs

/-- Over a value within the limit the count stays below it. -/
theorem Crosses.walks (crosses : Crosses (ValueWithin (room limit depth)) before after)
    (shallow : depth < limit) : ∃ text, Passes before text after ∧
      Count.Walks ⟨.outside, depth⟩ text ⟨.outside, depth⟩ depth (limit - 1) := by
  obtain ⟨space, text, isSpace, value, passes, _⟩ := crosses
  have below : depth + room limit depth ≤ limit - 1 := by
    rw [room]
    omega
  have front := (Count.walks_space isSpace).mono (Nat.le_refl depth) (Nat.le_pred_of_lt shallow)
  exact ⟨_, passes, front.append ((Count.walks_value value depth).mono (Nat.le_refl _) below)⟩

/-! Entries of an open container -/

theorem elementsFrom_agree (limits : Limits limit depth item item')
    (sound : Sound item depth fun _ => ValueWithin (room limit depth)) (shallow : depth < limit)
    (level : before.depth = depth) : Agree (Overfills limit depth) before
      (elementsFrom item budget count) (elementsFrom item' budget count) := by
  induction budget generalizing before count with
  | zero => exact .inl rfl
  | succ budget ih =>
    refine Agree.bind (.inl rfl) fun ended middle ends => ?_
    obtain ⟨separator, passes, ⟨rfl, _⟩ | ⟨rfl, separates⟩⟩ := arrayEnds_sound ends
    · exact .inl rfl
    · have level := passes.depth.trans level
      refine Agree.later ?_ passes.unread passes.offset fun text climbs =>
        (Count.walks_separator separates).climbs shallow climbs
      have element := (limits level).imp fun text exceeds => exceeds.overfills shallow
      refine Agree.bind element fun value next read => ?_
      obtain ⟨text, passes, walks⟩ := (sound level read).walks shallow
      have others := @ih next (count + 1) (passes.depth.trans level)
      exact (Agree.bind others fun _ _ _ => .inl rfl).later passes.unread passes.offset
        fun text climbs => walks.climbs (by omega) climbs

theorem keyWith_agree (limits : Limits limit depth inner inner')
    (sound : Sound inner depth fun _ => ValueWithin (room limit depth)) (shallow : depth < limit)
    (level : before.depth = depth) : Agree (Overfills limit depth) before
      (keyWith inner names budget count) (keyWith inner' names budget count) := by
  induction budget generalizing before count with
  | zero => exact .inl rfl
  | succ budget ih =>
    refine Agree.bind (.inl rfl) fun named middle header => ?_
    obtain ⟨heading, passes, ⟨rfl, _⟩ | ⟨name, rfl, isHeading⟩⟩ := memberName_sound header
    · exact .inl rfl
    · have level := passes.depth.trans level
      cases known : names.idxOf? name with
      | some index => exact .inl (by simp only [known])
      | none =>
        simp only [known]
        refine Agree.later ?_ passes.unread passes.offset fun text climbs =>
          (Count.walks_heading isHeading).climbs shallow climbs
        have member := (limits level).imp fun text exceeds => exceeds.overfills shallow
        refine Agree.bind member fun value next read => ?_
        obtain ⟨text, passes, walks⟩ := (sound level read).walks shallow
        exact (ih (passes.depth.trans level)).later passes.unread passes.offset fun text climbs =>
          walks.climbs (by omega) climbs

/-! Opening a container -/

theorem enter_refuses (deep : ¬before.depth + 1 < limit) : (enter limit).run before =
      .error ⟨SchemaError.tooDeep, none, before.offset + 1⟩ (before.advance 1).within := by
  change EStateM.run (if limit ≤ before.depth + 1 then fail SchemaError.tooDeep else pure ())
    (before.advance 1).within = _
  rw [if_pos (Nat.le_of_not_lt deep)]
  rfl

theorem enter_agree {k k' : Unit → Read α} (le : narrow ≤ wide) (level : before.depth = depth)
    (head : before.unread.head? = some byte)
    (opens : Count.next ⟨.outside, depth⟩ byte = ⟨.outside, depth + 1⟩)
    (inside : depth + 1 < narrow → ∀ ⦃opened⦄, opened.depth = depth + 1 →
      Agree (Overfills narrow (depth + 1)) opened (k ()) (k' ())) :
    Agree (fun text => Count.Climbs ⟨.outside, depth⟩ text (depth + 1) (max narrow (depth + 1)))
      before (enter narrow >>= k) (enter wide >>= k') := by
  subst level
  have bracket := passes_head head
  by_cases shallow : before.depth + 1 < narrow
  · have enters {limit : Nat} (le : narrow ≤ limit) :
        (enter limit).run before = .ok () (before.advance 1).within :=
      (enter_iff head).mpr ⟨by omega, _, bracket, rfl⟩
    refine Agree.bind (.inl ((enters (Nat.le_refl _)).trans (enters le).symm)) ?_
    intro _ opened entered
    obtain ⟨_, rfl⟩ := EStateM.Result.ok.inj ((enters (Nat.le_refl _)).symm.trans entered)
    have agree := @inside shallow (before.advance 1).within rfl
    refine agree.later bracket.unread bracket.offset fun text climbs => ?_
    rw [Nat.max_eq_left (Nat.le_of_lt shallow)]
    exact (Count.walks_byte opens).climbs shallow climbs
  · refine .inr ⟨[byte], _, (before.advance 1).within, ?_, bracket.unread, ?_⟩
    · exact Count.climbs_byte (by simp [opens, Nat.max_eq_right (Nat.le_of_not_lt shallow)])
    · rw [EStateM.run_bind, enter_refuses shallow]
      rfl

/-- Whitespace may stand before the bracket. -/
theorem exceeds_of_climbs (isSpace : Space front)
    (climbs : Count.Climbs ⟨.outside, depth⟩ text (depth + 1) (max limit (depth + 1))) :
    Exceeds limit depth (front ++ text) := ⟨front, text, rfl, isSpace, climbs⟩

theorem opens_agree {k k' : Unit → Read α} (le : narrow ≤ wide) (level : before.depth = depth)
    (opens : Count.next ⟨.outside, depth⟩ byte = ⟨.outside, depth + 1⟩)
    (inside : depth + 1 < narrow → ∀ ⦃opened⦄, opened.depth = depth + 1 →
      Agree (Overfills narrow (depth + 1)) opened (k ()) (k' ())) :
    Agree (Exceeds narrow depth) before
      ((expect (· == byte) expected >>= fun _ => enter narrow) >>= k)
      ((expect (· == byte) expected >>= fun _ => enter wide) >>= k') := by
  rw [bind_assoc, bind_assoc]
  refine Agree.bind (.inl rfl) fun found middle bracket => ?_
  obtain ⟨space, isSpace, passes, head, accepted⟩ := expect_sound bracket
  rw [beq_iff_eq.mp accepted] at head
  exact (enter_agree le (passes.depth.trans level) head opens inside).later passes.unread
    passes.offset fun text climbs => exceeds_of_climbs isSpace climbs

theorem elements_agree (limits : Limits limit depth item item')
    (sound : Sound item depth fun _ => ValueWithin (room limit depth)) (shallow : depth < limit)
    (level : before.depth = depth) :
    Agree (Overfills limit depth) before (elements item) (elements item') :=
  Agree.get (elementsFrom_agree limits sound shallow level)

/-! Skipping -/

theorem skipUsing_agree (le : narrow ≤ wide)
    (limits : depth + 1 < narrow → Limits narrow (depth + 1) inner inner')
    (sound : depth + 1 < narrow →
      Sound inner (depth + 1) fun _ => ValueWithin (room narrow (depth + 1))) :
    Limits narrow depth (skipUsing narrow inner) (skipUsing wide inner') := by
  intro before level
  refine Agree.bind (.inl rfl) fun first start peek => ?_
  obtain ⟨space, isSpace, passes, head⟩ := peekToken_sound peek
  have level := passes.depth.trans level
  cases first with
  | none => exact .inl rfl
  | some byte =>
    by_cases bracket : byte = Ascii.openBracket
    · subst bracket
      refine (enter_agree le level head rfl fun shallow opened level => ?_).later passes.unread
        passes.offset fun text climbs => exceeds_of_climbs isSpace climbs
      exact Agree.bind (elements_agree (limits shallow) (sound shallow) shallow level)
        fun _ _ _ => .inl rfl
    · by_cases brace : byte = Ascii.openBrace
      · subst brace
        refine (enter_agree le level head rfl fun shallow opened level => ?_).later passes.unread
          passes.offset fun text climbs => exceeds_of_climbs isSpace climbs
        exact Agree.get (Agree.bind (keyWith_agree (limits shallow) (sound shallow) shallow level)
          fun _ _ _ => .inl rfl)
      · exact .inl (by simp only [beq_iff_eq, bracket, brace, if_false])

theorem skipWithin_agree (le : narrow ≤ wide) {more : Nat} (levels : narrow - depth = count)
    (levels' : wide - depth = more) :
    Limits narrow depth (skipWithin narrow count) (skipWithin wide more) := by
  induction count generalizing depth more with
  | zero =>
    -- no container opens, so what would skip inside of one does not matter
    have full : ¬depth + 1 < narrow := by omega
    cases more with
    | zero => exact skipUsing_agree le (absurd · full) (absurd · full)
    | succ more => exact skipUsing_agree le (absurd · full) (absurd · full)
  | succ count ih =>
    obtain ⟨more, rfl⟩ : ∃ n, more = n + 1 := ⟨more - 1, by omega⟩
    exact skipUsing_agree le (fun _ => ih (by omega) (by omega))
      fun _ => skipWithin_sound (by omega)

theorem skip_agree (le : narrow ≤ wide) (depth : Nat) :
    Limits narrow depth (skip narrow) (skip wide) := by
  rintro before rfl
  exact Agree.get (skipWithin_agree le rfl rfl rfl)

/-! Typed arrays and objects -/

theorem readArray_agree (le : narrow ≤ wide)
    (limits : Limits narrow (depth + 1) item item')
    (sound : Sound item (depth + 1) fun _ => ValueWithin (room narrow (depth + 1))) :
    Limits narrow depth (readArray narrow item) (readArray wide item') := by
  intro before level
  refine opens_agree le level rfl fun shallow opened level => ?_
  exact Agree.bind (elements_agree limits sound shallow level) fun _ _ _ => .inl rfl

theorem key_agree (le : narrow ≤ wide) (shallow : depth < narrow) (level : before.depth = depth) :
    Agree (Overfills narrow depth) before (key narrow names count) (key wide names count) :=
  Agree.get (keyWith_agree (skip_agree le depth) skip_sound shallow level)

/-- Over the members that a search passes, and the name it finds, the count stays below the limit. -/
theorem key_walks {index : Nat} (shallow : depth < limit) (level : before.depth = depth)
    (searched : (key limit names count).run before = .ok (some index) after) :
    index < names.length ∧ ∃ text, Passes before text after ∧
      Count.Walks ⟨.outside, depth⟩ text ⟨.outside, depth⟩ depth (limit - 1) := by
  obtain ⟨_, _, got, searched⟩ := run_bind_ok searched
  obtain ⟨rfl, rfl⟩ := EStateM.Result.ok.inj got
  obtain ⟨passed, last, front, tail, isPassed, ignored, stops, passes⟩ :=
    keyWith_sound skip_sound level searched
  cases stops with
  | found isHeading known =>
    have below : depth + room limit depth ≤ limit - 1 := by
      rw [room]
      omega
    have member := Count.walks_passed isPassed (Nat.le_add_right ..) fun member listed =>
      Count.walks_value (ignored member listed).2 depth
    have name := (Count.walks_heading isHeading).mono (Nat.le_refl depth)
      (Nat.le_pred_of_lt shallow)
    exact ⟨(List.idxOf?_eq_some_iff.mp known).1, _, passes,
      (member.mono (Nat.le_refl depth) below).append name⟩

variable {field field' : Nat → ρ → Read ρ} {seen : List Nat} {record : ρ}

theorem membersFrom_agree (le : narrow ≤ wide)
    (limits : ∀ index record, index < names.length →
      Limits narrow depth (field index record) (field' index record))
    (sound : ∀ index record, index < names.length →
      Sound (field index record) depth fun _ => ValueWithin (room narrow depth))
    (shallow : depth < narrow) (level : before.depth = depth) :
    Agree (Overfills narrow depth) before
      (membersFrom narrow names field budget seen record)
      (membersFrom wide names field' budget seen record) := by
  induction budget generalizing before seen record with
  | zero => exact .inl rfl
  | succ budget ih =>
    refine Agree.bind (key_agree le shallow level) fun found middle searched => ?_
    cases found with
    | none => exact .inl rfl
    | some index =>
      by_cases repeated : index ∈ seen
      · exact .inl (by simp only [repeated, if_true])
      · obtain ⟨bound, text, passes, walks⟩ := key_walks shallow level searched
        have level := passes.depth.trans level
        simp only [repeated, if_false]
        refine Agree.later ?_ passes.unread passes.offset fun text climbs =>
          walks.climbs (by omega) climbs
        have value := (limits index record bound level).imp fun text exceeds =>
          exceeds.overfills shallow
        refine Agree.bind value fun next after read => ?_
        obtain ⟨text, passes, walks⟩ := (sound index record bound level read).walks shallow
        exact (ih (passes.depth.trans level)).later passes.unread passes.offset fun text climbs =>
          walks.climbs (by omega) climbs

theorem readObject_agree (le : narrow ≤ wide)
    (limits : ∀ index record, index < names.length →
      Limits narrow (depth + 1) (field index record) (field' index record))
    (sound : ∀ index record, index < names.length →
      Sound (field index record) (depth + 1) fun _ => ValueWithin (room narrow (depth + 1))) :
    Limits narrow depth (readObject narrow names field record)
      (readObject wide names field' record) := by
  intro before level
  refine opens_agree le level rfl fun shallow opened level => ?_
  exact Agree.get (Agree.bind (membersFrom_agree le limits sound shallow level)
    fun _ _ _ => .inl rfl)

/-! Whole documents -/

/-- A container that is one too many is inside of the value that a document begins with. -/
theorem Exceeds.inside {levels : Nat} {following : List UInt8} (exceeds : Exceeds limit 0 front)
    (document : Document levels text) (same : text ++ rest = front ++ following) :
    ∃ more, text = front ++ more := by
  rcases List.append_eq_append_iff.mp same with ⟨more, longer, _⟩ | ⟨more, inside, _⟩
  · obtain ⟨space, rise, rfl, isSpace, climbs⟩ := exceeds
    obtain @⟨space', value, back, isSpace', valid, _⟩ := document
    obtain ⟨byte, head, starts⟩ := valid.starts
    have begins : Starts (value ++ (back ++ more)) :=
      ⟨byte, by simp [head], starts⟩
    simp only [List.append_assoc] at longer
    obtain rfl := eq_of_space isSpace (climbs.starts (Nat.le_max_right ..)) isSpace' begins longer
    -- the value closes what it opens, and nothing is open there
    have nonempty : value ≠ [] := by
      rintro rfl
      contradiction
    have closed := Count.opened_mem_depths ⟨.outside, 0⟩ nonempty
    rw [(Count.walks_value valid 0).1] at closed
    obtain ⟨counts, same, bounded⟩ := climbs
    have reached : 0 ∈ counts ++ [max limit (0 + 1)] := by
      rw [← same, Count.depths_append]
      exact List.mem_append_left _ closed
    rcases List.mem_append.mp reached with earlier | last
    · exact absurd (bounded 0 earlier).1 (by decide)
    · have := List.mem_singleton.mp last
      omega
  · exact ⟨more, inside⟩

/-- What a limit means for a way to decode documents. Of two limits the narrower gives what the
wider gives, value or error, or else it refuses the document as too deep. A document decoded under
the wider one is one value and what may follow it. It is decoded under the narrower, to the same,
exactly if no container is ever open in it or always fewer than the limit; otherwise it is refused
right after the first bracket with which as many are open. -/
def LimitLaw (decode : Options → List UInt8 → Except Error α) (narrow wide : Nat)
    (allowTrailing : Bool) (document : List UInt8) : Prop :=
  (decode ⟨narrow, allowTrailing⟩ document = decode ⟨wide, allowTrailing⟩ document ∨
    ∃ error, decode ⟨narrow, allowTrailing⟩ document = .error error ∧
      error.cause = SchemaError.tooDeep) ∧
  ∀ value, decode ⟨wide, allowTrailing⟩ document = .ok value →
    ∃ text rest levels, document = text ++ rest ∧ Document levels text ∧
      (allowTrailing = false → rest = []) ∧
      (decode ⟨narrow, allowTrailing⟩ document = .ok value ↔
        nesting text = 0 ∨ nesting text < narrow) ∧
      (¬(nesting text = 0 ∨ nesting text < narrow) →
        decode ⟨narrow, allowTrailing⟩ document =
          .error ⟨SchemaError.tooDeep, none, (depths text).idxOf (max narrow 1) + 1⟩)

theorem limitLaw {item : Nat → Read α} (limits : Limits narrow 0 (item narrow) (item wide))
    (sound : ∀ limit, Sound (item limit) 0 fun _ => ValueWithin (room limit 0))
    (allowTrailing : Bool) (document : List UInt8) :
    LimitLaw (fun options => readDocument options (item options.depthLimit)) narrow wide
      allowTrailing document := by
  have agree : Agree (Exceeds narrow 0) (ofBytes document)
      (item narrow >>= fun value => finish ⟨narrow, allowTrailing⟩ >>= fun _ => pure value)
      (item wide >>= fun value => finish ⟨wide, allowTrailing⟩ >>= fun _ => pure value) :=
    Agree.bind (limits rfl) fun _ _ _ => .inl rfl
  rcases agree with same | ⟨front, after, last, exceeds, unread, failed⟩
  · have same : readDocument ⟨narrow, allowTrailing⟩ (item narrow) document =
        readDocument ⟨wide, allowTrailing⟩ (item wide) document := by
      simp only [readDocument, same]
    refine ⟨.inl same, fun value decoded => ?_⟩
    obtain ⟨text, rest, whole, isDocument, strict⟩ :=
      document_of_readDocument (sound narrow) (same.trans decoded)
    have bound : nesting text = 0 ∨ nesting text < narrow := by
      have : nesting text ≤ narrow - 0 - 1 := isDocument.nesting_le
      omega
    exact ⟨text, rest, _, whole, isDocument, strict, ⟨fun _ => bound, fun _ => same.trans decoded⟩,
      fun deep => absurd bound deep⟩
  · have failed : readDocument ⟨narrow, allowTrailing⟩ (item narrow) document =
        .error ⟨SchemaError.tooDeep, none, 0 + front.length⟩ := by
      simp only [readDocument, failed]
      rfl
    refine ⟨.inr ⟨_, failed, rfl⟩, fun value decoded => ?_⟩
    obtain ⟨text, rest, whole, isDocument, strict⟩ :=
      document_of_readDocument (sound wide) decoded
    obtain ⟨more, rfl⟩ := exceeds.inside isDocument (whole.symm.trans unread)
    have length := exceeds.climbs.length_eq more
    have deep : ¬(nesting (front ++ more) = 0 ∨ nesting (front ++ more) < narrow) := by
      have := le_nesting (exceeds.climbs.mem_depths more)
      omega
    have failed' := failed
    rw [Nat.zero_add, length] at failed'
    refine ⟨_, rest, _, whole, isDocument, strict, ⟨fun decoded' => ?_, fun shallow => ?_⟩,
      fun _ => failed'⟩
    · have contrary := failed.symm.trans decoded'
      contradiction
    · exact absurd shallow deep

end TypedJson.Reader
