import TypedJson.Codec

/-! Block and transaction ids: 32 bytes, written as hexadecimal text and ordered by content. -/
namespace TypedJson.Monero

structure Hash where
  bytes : Vector UInt8 32
deriving DecidableEq, Repr

namespace Hash

def zero : Hash := ⟨Vector.replicate 32 0⟩

instance : Inhabited Hash := ⟨zero⟩

def text (hash : Hash) : String := Hex.text hash.bytes.toList

instance : ToString Hash := ⟨text⟩

/-- Compares the bytes from the first on. -/
instance : Ord Hash := ⟨fun a b => compare a.bytes.toList b.bytes.toList⟩

instance : Codable Hash where
  schema := .binary 32
  toValue hash := hash.bytes
  ofValue bytes := ⟨bytes⟩
  ofValue_toValue _ := rfl

end Hash

end TypedJson.Monero
