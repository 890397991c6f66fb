import TypedJson.Monero.Chain

/-! Messages a daemon publishes: a topic, a colon, and a document whose form the topic decides. -/
namespace TypedJson.Monero

inductive Topic where
  /-- Every block of the main chain, with its transaction hashes. -/
  | fullChain
  /-- Block ids of the main chain. -/
  | minimalChain
  /-- Transactions added to the pool. -/
  | poolAdditions
deriving DecidableEq, Repr

namespace Topic

def all : List Topic := [.fullChain, .minimalChain, .poolAdditions]

def name : Topic → String
  | .fullChain => "json-full-chain_main"
  | .minimalChain => "json-minimal-chain_main"
  | .poolAdditions => "json-minimal-txpool_add"

/-- The name as it stands before the colon. -/
def nameBytes (topic : Topic) : List UInt8 := Utf8.encode topic.name.toList

/-- The topic of exactly this name. -/
def ofName? (name : List UInt8) : Option Topic := all.find? fun topic => topic.nameBytes == name

end Topic

/-- What was published under a topic. -/
inductive Publication where
  | fullChain (blocks : List Block)
  | minimalChain (chain : MinimalChain)
  | poolAdditions (transactions : List AnnouncedTx)
deriving DecidableEq, Repr

def Publication.topic : Publication → Topic
  | .fullChain _ => .fullChain
  | .minimalChain _ => .minimalChain
  | .poolAdditions _ => .poolAdditions

/-- A message, split but not decoded. -/
structure Message where
  topic : List UInt8
  contents : List UInt8
deriving DecidableEq, Repr

namespace Message

/-- Splits a message at its first colon. Without one there is no topic, only contents. -/
def ofBytes (raw : List UInt8) : Message :=
  let topic := raw.takeWhile (· != Ascii.colon)
  match raw.drop topic.length with
  | [] => ⟨[], raw⟩
  | _ :: contents => ⟨topic, contents⟩

def topic? (message : Message) : Option Topic := Topic.ofName? message.topic

/-- Decodes the contents in the form of the topic; a topic that is not known has none. -/
def decode (message : Message) : Except Error (Option Publication) :=
  match message.topic? with
  | none => .ok none
  | some .fullChain =>
    (Codable.decode (List Block) {} message.contents).map (some <| .fullChain ·)
  | some .minimalChain =>
    (Codable.decode MinimalChain {} message.contents).map (some <| .minimalChain ·)
  | some .poolAdditions =>
    (Codable.decode (List AnnouncedTx) {} message.contents).map (some <| .poolAdditions ·)

end Message

end TypedJson.Monero
