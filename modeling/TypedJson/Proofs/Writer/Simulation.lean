import TypedJson.Proofs.Writer.Draft

/-! The writer of a draft. Every call on it either adds its event to the draft and leaves the writer
of the new one, or is refused and leaves the writer as it was. -/
namespace TypedJson

variable {tree : Tree} {frames outer : List Frame} {texts : List (List UInt8)}
  {text token : List UInt8} {draft : Draft}

namespace Tree

/-- Texts that something follows. -/
def terminated (texts : List (List UInt8)) : List UInt8 := texts.flatMap (· ++ [Ascii.comma])

theorem separated_append (texts : List (List UInt8)) (text : List UInt8) :
    separated (texts ++ [text]) = terminated texts ++ text := by
  induction texts with
  | nil => exact List.intercalate_singleton
  | cons first texts ih =>
    rw [separated, List.cons_append, List.intercalate_cons_of_ne_nil (by simp), ← separated, ih]
    simp only [terminated, List.flatMap_cons, List.append_assoc]

theorem terminated_eq (texts : List (List UInt8)) :
    terminated texts = separated texts ++ if texts.length ≠ 0 then [Ascii.comma] else [] := by
  rcases List.eq_nil_or_concat texts with rfl | ⟨texts, last, rfl⟩
  · rfl
  · rw [List.concat_eq_append, separated_append]
    simp [terminated]

theorem length_renderAll (elements : List Tree) : (renderAll elements).length = elements.length := by
  rw [renderAll_eq, List.length_map]

theorem length_renderMembers (members : List (String × Tree)) :
    (renderMembers members).length = members.length := by
  rw [renderMembers_eq, List.length_map]

end Tree

namespace Draft

/-- A container while a value in it is written. -/
def enclosingText : Frame → List UInt8
  | .array elements => Ascii.openBracket :: Tree.terminated (Tree.renderAll elements)
  | .member members name => Ascii.openBrace :: Tree.terminated (Tree.renderMembers members) ++
      (Escape.quoted name.toList ++ [Ascii.colon])

def enclosingScope : Frame → Scope
  | .array elements => .array (elements.length + 1)
  | .member members _ => .object (members.length + 1) false

/-- A container before a value. -/
def innermostText : Frame → List UInt8
  | .array elements => Ascii.openBracket :: Tree.separated (Tree.renderAll elements)
  | .member members name => enclosingText (.member members name)

def innermostScope : Frame → Scope
  | .array elements => .array elements.length
  | .member members _ => .object (members.length + 1) true

def framesText : List Frame → List UInt8
  | [] => []
  | frame :: outer => framesText outer ++ enclosingText frame

/-- The writer once the text in some containers is written up to a value in the innermost. -/
def inside (frames : List Frame) (text : List UInt8) (complete : Bool) : Writer :=
  ⟨(framesText frames ++ text).toArray, frames.map enclosingScope, complete⟩

def writer : Draft → Writer
  | .awaiting [] => .empty
  | .awaiting (frame :: outer) => ⟨(framesText outer ++ innermostText frame).toArray,
      innermostScope frame :: outer.map enclosingScope, false⟩
  | .between members outer => ⟨(framesText outer ++ Ascii.openBrace ::
      Tree.separated (Tree.renderMembers members)).toArray,
      .object members.length false :: outer.map enclosingScope, false⟩
  | .finished tree => ⟨tree.render.toArray, [], true⟩

theorem put_writer (tree : Tree) (frames : List Frame) :
    (put tree frames).writer = inside frames tree.render frames.isEmpty := by
  cases frames with
  | nil => rfl
  | cons frame outer =>
    cases frame with
    | array elements =>
      simp only [put, writer, inside, framesText, enclosingText, innermostText, innermostScope,
        Tree.renderAll_eq, List.map_append, List.map_cons, List.map_nil, Tree.separated_append,
        List.length_append, List.append_assoc, List.cons_append]
      rfl
    | member members name =>
      simp only [put, writer, inside, framesText, enclosingText, Tree.renderMembers_eq, Tree.named,
        List.map_append, List.map_cons, List.map_nil, Tree.separated_append, List.length_append,
        List.append_assoc, List.cons_append, List.nil_append]
      rfl

end Draft

namespace Writer
open Draft

theorem append_inside (frames : List Frame) (text more : List UInt8) (complete : Bool) :
    (inside frames text complete).append more = inside frames (text ++ more) complete := by
  rw [inside, inside, append, ← List.append_assoc]
  simp

theorem separate_run (count : Nat) (writer : Writer) : (separate count).run writer =
    .ok () (writer.append (if count ≠ 0 then [Ascii.comma] else [])) := by
  rw [separate]
  split
  case isTrue => rfl
  case isFalse =>
    change EStateM.Result.ok () writer = _
    simp [append]

/-- The place for a value is taken in the innermost container. -/
theorem beginValue_awaiting (frames : List Frame) :
    beginValue.run (Draft.awaiting frames).writer = .ok () (inside frames [] false) := by
  cases frames with
  | nil => rfl
  | cons frame outer =>
    cases frame with
    | member members name =>
      change EStateM.Result.ok () (⟨(framesText outer ++ enclosingText (.member members name)).toArray,
        enclosingScope (.member members name) :: outer.map enclosingScope, false⟩ : Writer) = _
      rw [inside, framesText, List.append_nil]
      rfl
    | array elements =>
      have text : (Draft.awaiting (.array elements :: outer)).writer.text ++
          (if elements.length ≠ 0 then [Ascii.comma] else []) =
            (framesText (.array elements :: outer) ++ []).toArray := by
        rw [framesText, enclosingText, Tree.terminated_eq, Tree.length_renderAll, Draft.writer,
          innermostText, List.append_nil]
        simp
      change (separate elements.length >>= fun _ => setScopes _).run _ = _
      rw [EStateM.run_bind, separate_run]
      exact congrArg (fun text => EStateM.Result.ok ()
        (⟨text, (Frame.array elements :: outer).map enclosingScope, false⟩ : Writer)) text

/-- A call writes an event if it takes the writer of any draft to that of the draft with the event,
and is refused without a change where the event cannot come next. -/
def Writes (call : Write Unit) (event : Event) : Prop := ∀ draft : Draft,
  (∃ next, draft.step event = some next ∧ call.run draft.writer = .ok () next.writer) ∨
    draft.step event = none ∧ ∃ error, call.run draft.writer = .error error draft.writer

theorem run_bind_error {α β : Type} {m : Write α} {k : α → Write β} {error : Error}
    {writer last : Writer} (failed : m.run writer = .error error last) :
    (m >>= k).run writer = .error error last := by
  rw [EStateM.run_bind, failed]

/-- What begins a value is refused wherever no value can come next. -/
theorem writes_value {k : Unit → Write Unit} {event : Event}
    (follows : ∀ frames, ∃ next, (Draft.awaiting frames).step event = some next ∧
      (k ()).run (inside frames [] false) = .ok () next.writer)
    (between : ∀ members outer, (Draft.between members outer).step event = none)
    (finished : ∀ tree, (Draft.finished tree).step event = none) :
    Writes (beginValue >>= k) event := by
  intro draft
  cases draft with
  | awaiting frames =>
    obtain ⟨next, steps, run⟩ := follows frames
    refine .inl ⟨next, steps, ?_⟩
    rw [EStateM.run_bind, beginValue_awaiting]
    exact run
  | between members outer => exact .inr ⟨between members outer, _, run_bind_error rfl⟩
  | finished tree => exact .inr ⟨finished tree, _, run_bind_error rfl⟩

theorem endValue_inside (frames : List Frame) (text : List UInt8) :
    endValue.run (inside frames text false) = .ok () (inside frames text frames.isEmpty) := by
  cases frames <;> rfl

theorem writes_scalar (value : Leaf) : Writes (scalar value.text) (.leaf value) := by
  refine writes_value (fun frames => ⟨Draft.put (.leaf value) frames, rfl, ?_⟩) (fun _ _ => rfl)
    fun _ => rfl
  change endValue.run ((inside frames [] false).append value.text) = _
  rw [append_inside, endValue_inside, Draft.put_writer]
  rfl

theorem writes_openArray : Writes openArray .openArray := by
  refine writes_value (fun frames => ⟨.awaiting (.array [] :: frames), rfl, ?_⟩) (fun _ _ => rfl)
    fun _ => rfl
  have text := append_inside frames [] [Ascii.openBracket] false
  exact congrArg (fun writer : Writer => EStateM.Result.ok ()
    { writer with scopes := Scope.array 0 :: writer.scopes }) text

theorem writes_openObject : Writes openObject .openObject := by
  refine writes_value (fun frames => ⟨.between [] frames, rfl, ?_⟩) (fun _ _ => rfl)
    fun _ => rfl
  have text := append_inside frames [] [Ascii.openBrace] false
  exact congrArg (fun writer : Writer => EStateM.Result.ok ()
    { writer with scopes := Scope.object 0 false :: writer.scopes }) text

/-- The bracket that closes a container finishes a value of the container outside of it. -/
theorem closeScope_run (outer : List Frame) (scope : Scope) (text : List UInt8) (bracket : UInt8)
    (tree : Tree) (closes : text ++ [bracket] = tree.render) :
    (closeScope bracket).run ⟨(framesText outer ++ text).toArray,
      scope :: outer.map enclosingScope, false⟩ = .ok () (Draft.put tree outer).writer := by
  rw [Draft.put_writer, ← closes, ← endValue_inside, ← append_inside]
  rfl

theorem writes_closeArray : Writes closeArray .closeArray := by
  intro draft
  cases draft with
  | awaiting frames =>
    cases frames with
    | nil => exact .inr ⟨rfl, _, rfl⟩
    | cons frame outer =>
      cases frame with
      | array elements =>
        exact .inl ⟨_, rfl, closeScope_run outer _ _ Ascii.closeBracket (.array elements) rfl⟩
      | member members name => exact .inr ⟨rfl, _, rfl⟩
  | between members outer => exact .inr ⟨rfl, _, rfl⟩
  | finished tree => exact .inr ⟨rfl, _, rfl⟩

theorem writes_closeObject : Writes closeObject .closeObject := by
  intro draft
  cases draft with
  | awaiting frames =>
    cases frames with
    | nil => exact .inr ⟨rfl, _, rfl⟩
    | cons frame outer => cases frame <;> exact .inr ⟨rfl, _, rfl⟩
  | between members outer =>
    exact .inl ⟨_, rfl, closeScope_run outer _ _ Ascii.closeBrace (.object members) rfl⟩
  | finished tree => exact .inr ⟨rfl, _, rfl⟩

theorem writes_key (name : String) : Writes (key name) (.key name) := by
  intro draft
  cases draft with
  | awaiting frames =>
    cases frames with
    | nil => exact .inr ⟨rfl, _, rfl⟩
    | cons frame outer => cases frame <;> exact .inr ⟨rfl, _, rfl⟩
  | between members outer =>
    refine .inl ⟨_, rfl, ?_⟩
    have text : (Draft.between members outer).writer.text ++
        (if members.length ≠ 0 then [Ascii.comma] else []) ++
          (Escape.quoted name.toList ++ [Ascii.colon]) =
        (framesText outer ++ innermostText (.member members name)).toArray := by
      rw [innermostText, enclosingText, Tree.terminated_eq, Tree.length_renderMembers, Draft.writer]
      simp
    change (separate members.length >>= fun _ => modify (append _) >>= fun _ => setScopes _).run _ = _
    rw [EStateM.run_bind, separate_run]
    exact congrArg (fun text => EStateM.Result.ok () (⟨text, Scope.object (members.length + 1) true ::
      outer.map enclosingScope, false⟩ : Writer)) text
  | finished tree => exact .inr ⟨rfl, _, rfl⟩

/-- Only a finished document is handed out, and then the writer is empty. -/
theorem take_run (draft : Draft) :
    (∃ tree, draft = .finished tree ∧ take.run draft.writer = .ok tree.render .empty) ∨
      (∀ tree, draft ≠ .finished tree) ∧
        ∃ error, take.run draft.writer = .error error draft.writer := by
  cases draft with
  | awaiting frames =>
    cases frames with
    | nil => exact .inr ⟨nofun, _, rfl⟩
    | cons frame outer => exact .inr ⟨nofun, _, rfl⟩
  | between members outer => exact .inr ⟨nofun, _, rfl⟩
  | finished tree => exact .inl ⟨tree, rfl, rfl⟩

end Writer

end TypedJson
