import TypedJson.Monero.Hash
import TypedJson.Monero.Network
import TypedJson.Rpc

/-! What a daemon answers about itself and its transaction pool. -/
namespace TypedJson.Monero

/-- The status of a daemon. -/
structure DaemonStatus where
  height : UInt64
  /-- The height the daemon is catching up to, zero once it has. -/
  targetHeight : UInt64
  outgoingConnections : UInt64
  incomingConnections : UInt64
  topBlockHash : Hash
  mainnet : Bool
  testnet : Bool
  stagenet : Bool
deriving DecidableEq, Repr

/-- The network whose flag is set, if exactly one is. -/
def DaemonStatus.network? (info : DaemonStatus) : Option Network :=
  match info.mainnet, info.testnet, info.stagenet with
  | true, false, false => some .mainnet
  | false, true, false => some .testnet
  | false, false, true => some .stagenet
  | _, _, _ => none

instance : Codable DaemonStatus where
  schema :=
    .record
      [("height", Codable.schema UInt64), ("target_height", Codable.schema UInt64),
        ("outgoing_connections_count", Codable.schema UInt64),
        ("incoming_connections_count", Codable.schema UInt64),
        ("top_block_hash", Codable.schema Hash), ("mainnet", Codable.schema Bool),
        ("testnet", Codable.schema Bool), ("stagenet", Codable.schema Bool)]
  toValue info :=
    (Codable.toValue info.height, Codable.toValue info.targetHeight,
      Codable.toValue info.outgoingConnections, Codable.toValue info.incomingConnections,
      Codable.toValue info.topBlockHash, info.mainnet, info.testnet, info.stagenet, ())
  ofValue
    | (height, target, outgoing, incoming, top, mainnet, testnet, stagenet, ()) =>
      { height := Codable.ofValue height
        targetHeight := Codable.ofValue target
        outgoingConnections := Codable.ofValue outgoing
        incomingConnections := Codable.ofValue incoming
        topBlockHash := Codable.ofValue top
        mainnet, testnet, stagenet }
  ofValue_toValue info := by simp [Codable.ofValue_toValue]

structure InfoResult where
  info : DaemonStatus
deriving DecidableEq, Repr

instance : Codable InfoResult where
  schema := .record [("info", Codable.schema DaemonStatus)]
  toValue response := (Codable.toValue response.info, ())
  ofValue value := ⟨Codable.ofValue value.1⟩
  ofValue_toValue response := by simp [Codable.ofValue_toValue]

/-- Asks a daemon for its status. -/
def getInfo : Rpc.Method := { name := "get_info", Params := Rpc.Empty, Result := InfoResult }

/-- A transaction waiting in the pool. -/
structure PoolTx where
  txHash : Hash
deriving DecidableEq, Repr

instance : Codable PoolTx where
  schema := .record [("tx_hash", Codable.schema Hash)]
  toValue entry := (Codable.toValue entry.txHash, ())
  ofValue value := ⟨Codable.ofValue value.1⟩
  ofValue_toValue entry := by simp [Codable.ofValue_toValue]

/-- The pool, in the order the daemon lists it. -/
structure Pool where
  transactions : List PoolTx
deriving DecidableEq, Repr

instance : Codable Pool where
  schema := .record [("transactions", Codable.schema (List PoolTx))]
  toValue pool := (Codable.toValue pool.transactions, ())
  ofValue value := ⟨Codable.ofValue value.1⟩
  ofValue_toValue pool := by simp [Codable.ofValue_toValue]

/-- Asks a daemon for its transaction pool. -/
def getPool : Rpc.Method :=
  { name := "get_transaction_pool", Params := Rpc.Empty, Result := Pool }

end TypedJson.Monero
