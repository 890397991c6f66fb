import TypedJson.Monero.Publication
import TypedJson.Proofs.Schema.RoundTrip

/-! Messages and their frames. The name of a topic holds no colon, so the first colon of a message
ends its topic, and all that follows, colons included, are the contents. -/
namespace TypedJson.Monero

/-- The message of a topic with the given contents. -/
def Topic.frame (topic : Topic) (contents : List UInt8) : List UInt8 :=
  topic.nameBytes ++ Ascii.colon :: contents

/-- What is published by contents in the form of a topic. -/
def Topic.published (topic : Topic) (contents : List UInt8) : Except Error Publication :=
  match topic with
  | .fullChain => (Codable.decode (List Block) {} contents).map .fullChain
  | .minimalChain => (Codable.decode MinimalChain {} contents).map .minimalChain
  | .poolAdditions => (Codable.decode (List AnnouncedTx) {} contents).map .poolAdditions

/-- The contents that publish a record. -/
def Publication.contents : Publication → Except Error (List UInt8)
  | .fullChain blocks => Codable.encode blocks
  | .minimalChain chain => Codable.encode chain
  | .poolAdditions transactions => Codable.encode transactions

variable {raw contents : List UInt8} {topic : Topic} {publication : Publication}

theorem Topic.colon_not_mem_nameBytes (topic : Topic) : Ascii.colon ∉ topic.nameBytes := by
  cases topic <;> decide

theorem Topic.nameBytes_ne_nil (topic : Topic) : topic.nameBytes ≠ [] := by
  cases topic <;> decide

theorem Topic.ofName?_eq_some_iff {name : List UInt8} :
    ofName? name = some topic ↔ name = topic.nameBytes := by
  constructor
  · intro known
    have named := List.find?_some known
    exact (beq_iff_eq.mp named).symm
  · rintro rfl
    cases topic <;> decide

namespace Message

/-- A message is split at its first colon. -/
theorem ofBytes_append {name : List UInt8} (plain : Ascii.colon ∉ name) :
    ofBytes (name ++ Ascii.colon :: contents) = ⟨name, contents⟩ := by
  have taken : (name ++ Ascii.colon :: contents).takeWhile (· != Ascii.colon) = name := by
    rw [List.takeWhile_append_of_pos (by simpa [bne_iff_ne] using List.forall_mem_ne'.mpr plain),
      List.takeWhile_cons_of_neg (by decide), List.append_nil]
  simp only [ofBytes, taken, List.drop_left]

theorem ofBytes_plain (plain : Ascii.colon ∉ raw) : ofBytes raw = ⟨[], raw⟩ := by
  have taken : raw.takeWhile (· != Ascii.colon) = raw :=
    List.takeWhile_eq_self_iff.mpr (by simpa [bne_iff_ne] using List.forall_mem_ne'.mpr plain)
  simp only [ofBytes, taken, List.drop_length]

/-- The topic of a message is the one that frames it. -/
theorem topic?_eq_some_iff :
    (ofBytes raw).topic? = some topic ↔ ∃ contents, raw = topic.frame contents := by
  rw [topic?, Topic.ofName?_eq_some_iff]
  constructor
  · intro named
    by_cases colon : Ascii.colon ∈ raw
    · obtain ⟨name, contents, rfl, plain⟩ := List.eq_append_cons_of_mem colon
      rw [ofBytes_append plain] at named
      exact ⟨contents, congrArg (· ++ _) named⟩
    · rw [ofBytes_plain colon] at named
      exact absurd named.symm topic.nameBytes_ne_nil
  · rintro ⟨contents, rfl⟩
    rw [Topic.frame, ofBytes_append topic.colon_not_mem_nameBytes]

theorem decode_frame (topic : Topic) (contents : List UInt8) :
    (ofBytes (topic.frame contents)).decode = (topic.published contents).map some := by
  have known : (ofBytes (topic.frame contents)).topic? = some topic :=
    topic?_eq_some_iff.mpr ⟨contents, rfl⟩
  have split : (ofBytes (topic.frame contents)).contents = contents := by
    rw [Topic.frame, ofBytes_append topic.colon_not_mem_nameBytes]
  have composed {α : Type} (result : Except Error α) (f : α → Publication) :
      result.map (fun a => some (f a)) = (result.map f).map some := by
    cases result <;> rfl
  rw [decode, known, split]
  cases topic <;> exact composed _ _

end Message

/-- Contents of the form of a record are published under its own topic. -/
theorem Publication.published_contents (publication : Publication) :
    ∃ contents, publication.contents = .ok contents ∧
      publication.topic.published contents = .ok publication := by
  have roundTrip {α : Type} [Codable α] (isRecord : IsRecord α)
      (shallow : (Codable.schema α).height < 100) (a : α) :
      ∃ contents, Codable.encode a = .ok contents ∧ Codable.decode α {} contents = .ok a :=
    Codable.roundTrips isRecord.distinct isRecord.hasText a {}
      (.inr (Nat.lt_of_le_of_lt (Schema.nesting_le_height _ _) shallow))
  cases publication with
  | fullChain blocks =>
    obtain ⟨contents, encoded, decoded⟩ := roundTrip (.list .block) (by decide) blocks
    exact ⟨contents, encoded, congrArg (Except.map Publication.fullChain) decoded⟩
  | minimalChain chain =>
    obtain ⟨contents, encoded, decoded⟩ := roundTrip .minimalChain (by decide) chain
    exact ⟨contents, encoded, congrArg (Except.map Publication.minimalChain) decoded⟩
  | poolAdditions transactions =>
    obtain ⟨contents, encoded, decoded⟩ := roundTrip (.list .announcedTx) (by decide) transactions
    exact ⟨contents, encoded, congrArg (Except.map Publication.poolAdditions) decoded⟩

/-- A message publishes nothing just if no topic frames it. Otherwise it publishes what its
contents, all that follows the first colon, hold in the form of its topic, or fails as they do. The
contents of a record, framed by its topic, publish it. -/
theorem Message.framed :
    (∀ raw, (ofBytes raw).decode = .ok none ↔
      ¬∃ (topic : Topic) (contents : List UInt8), raw = topic.frame contents) ∧
    (∀ (topic : Topic) (contents : List UInt8), Ascii.colon ∉ topic.nameBytes ∧
      (ofBytes (topic.frame contents)).decode = (topic.published contents).map some) ∧
    ∀ publication : Publication, ∃ contents, publication.contents = .ok contents ∧
      (ofBytes (publication.topic.frame contents)).decode = .ok (some publication) := by
  refine ⟨fun raw => ⟨?_, ?_⟩, fun topic contents => ⟨topic.colon_not_mem_nameBytes,
    decode_frame topic contents⟩, fun publication => ?_⟩
  · rintro silent ⟨topic, contents, rfl⟩
    rw [decode_frame] at silent
    cases published : topic.published contents <;> rw [published] at silent <;> cases silent
  · intro unframed
    have unknown : (ofBytes raw).topic? = none :=
      Option.eq_none_iff_forall_ne_some.mpr fun topic known =>
        unframed ⟨topic, topic?_eq_some_iff.mp known⟩
    rw [decode, unknown]
  · obtain ⟨contents, encoded, decoded⟩ := publication.published_contents
    refine ⟨contents, encoded, ?_⟩
    rw [decode_frame, decoded]
    rfl

end TypedJson.Monero
