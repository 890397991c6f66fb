import TypedJson.Codec

/-! The networks a daemon can serve. -/
namespace TypedJson.Monero

inductive Network where
  | mainnet
  | testnet
  | stagenet
deriving DecidableEq, Repr, Inhabited

namespace Network

def all : List Network := [.mainnet, .testnet, .stagenet]

def name : Network → String
  | .mainnet => "mainnet"
  | .testnet => "testnet"
  | .stagenet => "stagenet"

def ofIndex (index : Nat) : Network := all.getD index default

instance : Codable Network where
  schema := .enumeration (all.map name)
  toValue network := all.idxOf network
  ofValue index := ofIndex index
  ofValue_toValue network := by cases network <;> rfl

end Network

end TypedJson.Monero
