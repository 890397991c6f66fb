import TypedJson.Monero.Hash

/-! Blocks, chains and transactions as a daemon announces them. Only the members needed to follow a
chain are declared; all others are skipped. -/
namespace TypedJson.Monero

/-- A transaction announced in the pool: only its id. -/
structure AnnouncedTx where
  id : Hash
deriving DecidableEq, Repr

instance : Codable AnnouncedTx where
  schema := .record [("id", Codable.schema Hash)]
  toValue tx := (Codable.toValue tx.id, ())
  ofValue value := ⟨Codable.ofValue value.1⟩
  ofValue_toValue tx := by simp [Codable.ofValue_toValue]

/-- A block with its transactions, without the one that pays the miner, in block order. -/
structure Block where
  txHashes : List Hash
  prevId : Hash
deriving DecidableEq, Repr

instance : Codable Block where
  schema :=
    .record [("tx_hashes", Codable.schema (List Hash)), ("prev_id", Codable.schema Hash)]
  toValue block := (Codable.toValue block.txHashes, Codable.toValue block.prevId, ())
  ofValue value := ⟨Codable.ofValue value.1, Codable.ofValue value.2.1⟩
  ofValue_toValue block := by simp [Codable.ofValue_toValue]

/-- Consecutive block ids, the lowest first, with the height of the first and the id before it. -/
structure MinimalChain where
  firstHeight : UInt64
  ids : List Hash
  firstPrevId : Hash
deriving DecidableEq, Repr

instance : Codable MinimalChain where
  schema :=
    .record
      [("first_height", Codable.schema UInt64), ("ids", Codable.schema (List Hash)),
        ("first_prev_id", Codable.schema Hash)]
  toValue chain :=
    (Codable.toValue chain.firstHeight, Codable.toValue chain.ids,
      Codable.toValue chain.firstPrevId, ())
  ofValue value :=
    ⟨Codable.ofValue value.1, Codable.ofValue value.2.1, Codable.ofValue value.2.2.1⟩
  ofValue_toValue chain := by simp [Codable.ofValue_toValue]

end TypedJson.Monero
