import TypedJson.Codec
import TypedJson.Proofs.Reader.Binary
import TypedJson.Proofs.Schema.Listing

/-! Reading over a value that is already there, part by part. A scalar is put in place of the
earlier one, a list is cleared and pushed to, bytes are filled in where they stand, and a record is
changed field by field; where reading fails, the target is left as far as it was changed. Whatever
it held before, the outcome is that of reading afresh: a record is told by the fields met so far,
and one that is not wholly overwritten is refused. -/
namespace TypedJson

open Reader

namespace Reader

/-- A reader, and the value that is read over. -/
structure Target (σ : Type) where
  reader : Reader
  value : σ

/-- A step that changes its target in place. -/
abbrev Overwrite (σ α : Type) := EStateM Error (Target σ) α

variable {α β σ τ ρ : Type}

/-- A step of the reader that leaves the target alone. -/
def apart (step : Read α) : Overwrite σ α := fun state =>
  match step.run state.reader with
  | .ok answer reader => .ok answer { state with reader }
  | .error error reader => .error error { state with reader }

def put (value : σ) : Overwrite σ Unit := modify fun state => { state with value }

/-- Puts what is read in place of the target. -/
def assign (step : Read σ) : Overwrite σ Unit := do put (← apart step)

/-- Reads over a part of the target. -/
def inside (part : σ → τ) (restore : τ → σ → σ) (step : Overwrite τ Unit) : Overwrite σ Unit :=
  fun state =>
    match step.run ⟨state.reader, part state.value⟩ with
    | .ok _ last => .ok () ⟨last.reader, restore last.value state.value⟩
    | .error error last => .error error ⟨last.reader, restore last.value state.value⟩

/-- A step over a target, as one that gives what the target then holds with its answer. -/
def gives (step : Overwrite σ α) (target : σ) : Read (α × σ) := fun reader =>
  match step.run ⟨reader, target⟩ with
  | .ok answer state => .ok (answer, state.value) state.reader
  | .error error state => .error error state.reader

/-- Reads over a target and gives what it then holds. -/
def held (step : Overwrite σ Unit) (target : σ) : Read σ := do return (← gives step target).2

/-- Reads over a list as over the destination of an array. -/
def listed (fill : EStateM Error (Filling α) Unit) : Overwrite (List α) Unit := fun state =>
  match fill.run ⟨state.reader, state.value⟩ with
  | .ok _ last => .ok () ⟨last.reader, last.dest⟩
  | .error error last => .error error ⟨last.reader, last.dest⟩

/-- Clears the text, and adds to it what is read. -/
def stringOver : Overwrite String Unit := do
  let text ← apart string
  put ""
  modify fun state => { state with value := state.value ++ text }

/-- Fills in the bytes that a string spells. -/
def binaryOver (width : Nat) : Overwrite (Vector UInt8 width) Unit := do
  let _ ← apart (expect (· == Ascii.quote) .fixedBinary)
  let start := (← apart get).offset
  let text ← apart stringToken
  match Hex.decodeOver (← get).value (Utf8.encode text.toList) with
  | .ok bytes => put bytes
  | .error fault => apart (failAt start SchemaError.fixedBinary (some fault.message))

/-- Reads the remaining members of the open object over the fields of a record. -/
def fillMembers (limit : Nat) (names : List String) (field : Nat → Overwrite ρ Unit) :
    (budget : Nat) → (seen : List Nat) → Overwrite ρ (List Nat)
  | 0, _ => apart (fail SyntaxError.missingMemberSeparator)
  | budget + 1, seen => do
    match ← apart (key limit names seen.length) with
    | none => return seen
    | some index =>
      if index ∈ seen then
        apart (failAt (← apart get).offset SchemaError.duplicateKey
          (some ("duplicate " ++ names.getD index "")))
      else
        field index
        fillMembers limit names field budget (index :: seen)

/-- Reads an object over the fields of a record. -/
def fillObject (limit : Nat) (names : List String) (field : Nat → Overwrite ρ Unit) :
    Overwrite ρ Unit := do
  apart (openObject limit)
  let seen ← fillMembers limit names field (← apart get).unread.length []
  apart closeObject
  match firstMissing? names seen with
  | some name => apart (failAt (← apart get).offset SchemaError.missingKey (some name))
  | none => return

/-! What the steps give -/

variable {target : σ} {reader : Reader}

theorem ext_run {item item' : Read α} (same : ∀ before, item.run before = item'.run before) :
    item = item' :=
  funext same

theorem run_gives (step : Overwrite σ α) :
    (gives step target).run reader = match step.run ⟨reader, target⟩ with
      | .ok answer state => .ok (answer, state.value) state.reader
      | .error error state => .error error state.reader := rfl

theorem run_held (step : Overwrite σ Unit) :
    (held step target).run reader = match step.run ⟨reader, target⟩ with
      | .ok _ state => .ok state.value state.reader
      | .error error state => .error error state.reader := by
  rw [held, EStateM.run_bind, run_gives]
  cases step.run ⟨reader, target⟩ <;> rfl

theorem gives_bind (step : Overwrite σ α) (k : α → Overwrite σ β) :
    gives (step >>= k) target = gives step target >>= fun given => gives (k given.1) given.2 := by
  refine ext_run fun reader => ?_
  rw [run_gives, EStateM.run_bind, EStateM.run_bind, run_gives]
  cases step.run ⟨reader, target⟩ <;> rfl

theorem gives_apart (step : Read α) :
    gives (apart step) target = step >>= fun answer => pure (answer, target) := by
  refine ext_run fun reader => ?_
  have ran : (apart step).run ⟨reader, target⟩ = match step.run reader with
    | .ok answer reader => .ok answer ⟨reader, target⟩
    | .error error reader => .error error ⟨reader, target⟩ := rfl
  rw [run_gives, EStateM.run_bind, ran]
  cases step.run reader <;> rfl

theorem held_apart_bind (step : Read α) (k : α → Overwrite σ Unit) :
    held (apart step >>= k) target = step >>= fun answer => held (k answer) target := by
  rw [held, gives_bind, gives_apart]
  simp only [bind_assoc, pure_bind, held]

theorem held_assign (step : Read σ) : held (assign step) target = step := by
  rw [assign, held_apart_bind]
  change step >>= pure = step
  rw [bind_pure]

theorem held_inside {part : σ → τ} {restore : τ → σ → σ} (step : Overwrite τ Unit) :
    held (inside part restore step) target =
      held step (part target) >>= fun value => pure (restore value target) := by
  refine ext_run fun reader => ?_
  have ran : (inside part restore step).run ⟨reader, target⟩ =
      match step.run ⟨reader, part target⟩ with
      | .ok _ last => .ok () ⟨last.reader, restore last.value target⟩
      | .error error last => .error error ⟨last.reader, restore last.value target⟩ := rfl
  rw [EStateM.run_bind, run_held, run_held, ran]
  cases step.run ⟨reader, part target⟩ <;> rfl

theorem held_listed (fill : EStateM Error (Filling α) Unit) (dest : List α) :
    (held (listed fill) dest).run reader = filled (fill.run ⟨reader, dest⟩) := by
  have ran : (listed fill).run ⟨reader, dest⟩ = match fill.run ⟨reader, dest⟩ with
    | .ok _ last => .ok () ⟨last.reader, last.dest⟩
    | .error error last => .error error ⟨last.reader, last.dest⟩ := rfl
  rw [run_held, ran]
  cases fill.run ⟨reader, dest⟩ <;> rfl

theorem held_stringOver {target : String} : held stringOver target = string := by
  have added (text : String) : held (do
      put ""
      modify fun state => { state with value := state.value ++ text }) target =
        pure ("" ++ text) := rfl
  rw [stringOver, held_apart_bind]
  simp only [added, String.empty_append, bind_pure]

theorem held_binaryOver {width : Nat} {target : Vector UInt8 width} :
    held (binaryOver width) target = binary width := by
  have read (k : Target (Vector UInt8 width) → Overwrite (Vector UInt8 width) Unit) :
      held (get >>= k) target = get >>= fun reader => held (k ⟨reader, target⟩) target := rfl
  rw [binaryOver, binary, held_apart_bind]
  refine bind_congr fun _ => ?_
  rw [held_apart_bind]
  refine bind_congr fun reader => ?_
  rw [held_apart_bind]
  refine bind_congr fun text => ?_
  rw [read]
  simp only [Hex.decodeOver_eq]
  cases Hex.decode width (Utf8.encode text.toList) <;> rfl

/-- The members of an object change a record as they make a new one out of it. -/
theorem gives_fillMembers {limit budget : Nat} {names : List String}
    {field : Nat → Overwrite ρ Unit} {seen : List Nat} {record : ρ} :
    gives (fillMembers limit names field budget seen) record =
      membersFrom limit names (fun index => held (field index)) budget seen record := by
  induction budget generalizing seen record with
  | zero => rfl
  | succ budget ih =>
    rw [fillMembers, membersFrom, gives_bind, gives_apart]
    simp only [bind_assoc, pure_bind]
    refine bind_congr fun found => ?_
    cases found with
    | none => rfl
    | some index =>
      by_cases member : index ∈ seen
      · simp only [member, if_true]
        rfl
      · simp only [member, if_false]
        rw [gives_bind, held, bind_assoc]
        simp only [ih, pure_bind]

theorem held_fillObject {limit : Nat} {names : List String} {field : Nat → Overwrite ρ Unit}
    {record : ρ} : held (fillObject limit names field) record =
      readObject limit names (fun index => held (field index)) record := by
  rw [fillObject, readObject, held_apart_bind]
  refine bind_congr fun _ => ?_
  rw [held_apart_bind]
  refine bind_congr fun reader => ?_
  rw [held, gives_bind, gives_fillMembers, bind_assoc]
  refine bind_congr fun given => ?_
  obtain ⟨seen, record⟩ := given
  change held (apart closeObject >>= _) record = _
  rw [held_apart_bind]
  refine bind_congr fun _ => ?_
  dsimp only
  cases firstMissing? names seen <;> rfl

/-! Targets that differ -/

/-- Two steps that fail alike, or come to the same reader with values that are related. -/
inductive Alike (same : α → α → Prop) :
    EStateM.Result Error Reader α → EStateM.Result Error Reader α → Prop where
  | ok {value value' : α} {reader : Reader} : same value value' →
      Alike same (.ok value reader) (.ok value' reader)
  | error {error : Error} {reader : Reader} : Alike same (.error error reader) (.error error reader)

/-- Steps that come to the same from every reader, but for the values that are related. -/
def Parallel (same : α → α → Prop) (item item' : Read α) : Prop :=
  ∀ before, Alike same (item.run before) (item'.run before)

theorem Parallel.refl (item : Read α) : Parallel Eq item item := by
  intro before
  cases item.run before with
  | ok => exact .ok rfl
  | error => exact .error

theorem Parallel.bind {same : α → α → Prop} {same' : β → β → Prop} {item item' : Read α}
    {k k' : α → Read β} (first : Parallel same item item')
    (following : ∀ value value', same value value' → Parallel same' (k value) (k' value')) :
    Parallel same' (item >>= k) (item' >>= k') := by
  intro before
  have alike := first before
  rw [EStateM.run_bind, EStateM.run_bind]
  generalize item.run before = outcome, item'.run before = outcome' at alike ⊢
  cases alike with
  | ok related => exact following _ _ related _
  | error => exact .error

theorem Parallel.eq {item item' : Read α} (parallel : Parallel Eq item item') : item = item' := by
  refine ext_run fun before => ?_
  have alike := parallel before
  generalize item.run before = outcome, item'.run before = outcome' at alike ⊢
  cases alike with
  | ok same => rw [same]
  | error => rfl

variable {γ : Type} {look : Nat → ρ → γ} {field : Nat → ρ → Read ρ} {names : List String}
  {limit budget : Nat} {seen : List Nat} {record record' : ρ}

/-- What is read into the field at an index does not depend on the record, of which the other fields
are kept; `look` gives the field at an index. -/
def Confined (look : Nat → ρ → γ) (field : Nat → ρ → Read ρ) : Prop :=
  ∀ index record record', Parallel (fun next next' => look index next = look index next' ∧
      ∀ other ≠ index, look other next = look other record ∧ look other next' = look other record')
    (field index record) (field index record')

/-- Records that have the fields met so far in common keep them so. -/
theorem membersFrom_parallel (confined : Confined look field)
    (same : ∀ index ∈ seen, look index record = look index record') :
    Parallel (fun left right => left.1 = right.1 ∧
        ∀ index ∈ left.1, look index left.2 = look index right.2)
      (membersFrom limit names field budget seen record)
      (membersFrom limit names field budget seen record') := by
  induction budget generalizing seen record record' with
  | zero => exact fun _ => .error
  | succ budget ih =>
    refine (Parallel.refl (key limit names seen.length)).bind fun found _ sameFound => ?_
    subst sameFound
    cases found with
    | none => exact fun _ => .ok ⟨rfl, same⟩
    | some index =>
      by_cases member : index ∈ seen
      · simp only [member, if_true]
        exact fun _ => .error
      · simp only [member, if_false]
        refine (confined index record record').bind fun next next' related => ih ?_
        obtain ⟨placed, kept⟩ := related
        refine List.forall_mem_cons.mpr ⟨placed, fun other before => ?_⟩
        obtain ⟨left, right⟩ := kept other fun equal => member (equal ▸ before)
        rw [left, right, same other before]

/-- An object that is read supplies every field, so nothing of the record is left. -/
theorem readObject_eq (confined : Confined look field)
    (determined : ∀ record record',
      (∀ index < names.length, look index record = look index record') → record = record') :
    readObject limit names field record = readObject limit names field record' := by
  refine Parallel.eq ((Parallel.refl (openObject limit)).bind fun _ _ _ => ?_)
  refine (Parallel.refl get).bind fun reader _ sameReader => ?_
  subst sameReader
  refine (membersFrom_parallel confined (List.forall_mem_nil _)).bind fun left right related => ?_
  obtain ⟨seen, left⟩ := left
  obtain ⟨_, right⟩ := right
  obtain ⟨rfl, same⟩ := related
  refine (Parallel.refl closeObject).bind fun _ _ _ => ?_
  cases missing : firstMissing? names seen with
  | some name => exact fun _ => .error
  | none =>
    have all := firstMissing?_eq_none_iff.mp missing
    rw [determined left right fun index bound => same index (all index bound)]
    exact .refl _

end Reader

mutual
/-- Reads a value of the schema over the target. -/
def Schema.fill (limit : Nat) : (schema : Schema) → Overwrite schema.Value Unit
  | .boolean => assign Reader.boolean
  | .integer type => assign (integer type)
  | .real => assign Reader.real
  | .string => stringOver
  | .binary width => binaryOver width
  | .enumeration names => assign (Reader.enumeration names)
  | .array element => listed (fillArray limit (held (element.fill limit) element.default))
  | .object fields => fillObject limit fields.names (fields.fillAt limit)

/-- Reads the value of the field at `index` over the one in the record. -/
def Fields.fillAt (limit : Nat) : (fields : Fields) → Nat → Overwrite fields.Record Unit
  | .nil, _ => pure ()
  | .cons _ schema _, 0 =>
    inside Prod.fst (fun value record => (value, record.2)) (schema.fill limit)
  | .cons _ _ rest, index + 1 =>
    inside Prod.snd (fun others record => (record.1, others)) (rest.fillAt limit index)
end

mutual
/-- Reading in place comes to reading. -/
theorem Schema.held_fill (limit : Nat) : ∀ (schema : Schema) (target : schema.Value),
    held (schema.fill limit) target = schema.readInto limit target
  | .boolean, _ => held_assign Reader.boolean
  | .integer type, _ => held_assign (integer type)
  | .real, _ => held_assign Reader.real
  | .string, _ => held_stringOver
  | .binary _, _ => held_binaryOver
  | .enumeration names, _ => held_assign (Reader.enumeration names)
  | .array element, dest => by
    refine ext_run fun before => ?_
    rw [Schema.fill, held_listed, filled_fillArray, element.held_fill limit]
    rfl
  | .object fields, record => by
    have same : (fun index => held (fields.fillAt limit index)) = fields.readAt limit :=
      funext fun index => funext fun record => fields.held_fillAt limit index record
    rw [Schema.fill, held_fillObject, same]
    rfl

theorem Fields.held_fillAt (limit : Nat) : ∀ (fields : Fields) (index : Nat)
    (record : fields.Record), held (fields.fillAt limit index) record =
      fields.readAt limit index record
  | .nil, _, _ => rfl
  | .cons _ schema _, 0, (value, others) => by
    rw [Fields.fillAt, held_inside, schema.held_fill limit]
    rfl
  | .cons _ _ rest, index + 1, (value, others) => by
    rw [Fields.fillAt, held_inside, rest.held_fillAt limit]
    rfl
end

mutual
theorem Schema.readInto_eq (limit : Nat) : ∀ (schema : Schema) (target target' : schema.Value),
    schema.readInto limit target = schema.readInto limit target'
  | .boolean, _, _ => rfl
  | .integer _, _, _ => rfl
  | .real, _, _ => rfl
  | .string, _, _ => rfl
  | .binary _, _, _ => rfl
  | .enumeration _, _, _ => rfl
  | .array _, _, _ => rfl
  | .object fields, _, _ => readObject_eq (fields.readAt_confined limit) fields.eq_of_at?

theorem Fields.readAt_confined (limit : Nat) :
    ∀ fields : Fields, Confined fields.at? (fields.readAt limit)
  | .nil => fun _ _ _ _ => .ok ⟨rfl, fun _ _ => ⟨rfl, rfl⟩⟩
  | .cons _ schema rest => by
    rintro (_ | index) ⟨value, others⟩ ⟨value', others'⟩
    · rw [Fields.readAt, Fields.readAt, schema.readInto_eq limit value value']
      refine (Parallel.refl _).bind fun read _ sameRead _ => ?_
      subst sameRead
      refine .ok ⟨rfl, fun other differs => ?_⟩
      obtain ⟨other, rfl⟩ := Nat.exists_eq_succ_of_ne_zero differs
      exact ⟨rfl, rfl⟩
    · refine (rest.readAt_confined limit index others others').bind
        fun next next' ⟨placed, kept⟩ _ => .ok ⟨placed, fun other differs => ?_⟩
      cases other with
      | zero => exact ⟨rfl, rfl⟩
      | succ other => exact kept other fun same => differs (congrArg _ same)
end

namespace Schema

/-- Decodes a complete document over the target: the outcome, and what the target then holds. -/
def decodeOver (options : Options) (schema : Schema) (target : schema.Value)
    (document : List UInt8) : Except Error schema.Value × schema.Value :=
  let whole : Overwrite schema.Value Unit := do
    schema.fill options.depthLimit
    apart (finish options)
  match whole.run ⟨ofBytes document, target⟩ with
  | .ok _ state => (.ok state.value, state.value)
  | .error error state => (.error error, state.value)

/-- Decodes documents one after the other over the same target. -/
def decodeEach (options : Options) (schema : Schema) :
    schema.Value → List (List UInt8) → List (Except Error schema.Value)
  | _, [] => []
  | target, document :: documents =>
    let (outcome, target) := schema.decodeOver options target document
    outcome :: schema.decodeEach options target documents

theorem decodeOver_fst (options : Options) (schema : Schema) (target : schema.Value)
    (document : List UInt8) :
    (schema.decodeOver options target document).1 = schema.decode options document := by
  have whole : held (do
      schema.fill options.depthLimit
      apart (finish options)) target = (do
        let value ← schema.readInto options.depthLimit schema.default
        finish options
        return value) := by
    rw [held, gives_bind, bind_assoc, ← schema.readInto_eq _ target, ← schema.held_fill, held,
      bind_assoc]
    simp only [gives_apart, bind_assoc, pure_bind]
  rw [decodeOver, decode, decodeInto, ← whole, run_held]
  cases (do
    schema.fill options.depthLimit
    apart (finish options) : Overwrite schema.Value Unit).run ⟨ofBytes document, target⟩ <;> rfl

/-- Reading a value over a target does not depend on the target: two runs from the same reader fail
with the same error or leave the same value, and the same reader. They do what reading afresh does.
So of documents that are decoded over the same target, one after the other, each comes out as if it
were the only one, whatever those before it left, also where they were refused. -/
theorem overwrites (schema : Schema) (limit : Nat) (target other : schema.Value) (before : Reader) :
    (held (schema.fill limit) target).run before = (held (schema.fill limit) other).run before ∧
      held (schema.fill limit) target = schema.read limit ∧
      ∀ options documents,
        schema.decodeEach options target documents = documents.map (schema.decode options) := by
  have fresh (target : schema.Value) : held (schema.fill limit) target = schema.read limit := by
    rw [schema.held_fill, schema.readInto_eq limit target schema.default, Schema.read]
  refine ⟨by rw [fresh target, fresh other], fresh target, fun options documents => ?_⟩
  induction documents generalizing target with
  | nil => rfl
  | cons document documents ih =>
    rw [List.map_cons, ← decodeOver_fst options schema target document, ← ih]
    rfl

end Schema

end TypedJson
