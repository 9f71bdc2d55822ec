import MalachiteMempool.Types

/-! # Messages of the gossip network

The part of `libp2p-network` that the mempool exchanges with it: the batch it
broadcasts and the events it receives.
-/

namespace MalachiteMempool

/-- `prost_types::Any`. -/
structure ProtoAny where
  typeUrl : String
  value : Bytes
  deriving DecidableEq, Repr

structure MempoolTransactionBatch where
  transactionBatch : ProtoAny
  deriving DecidableEq, Repr

namespace Network

inductive Channel where
  | mempool
  deriving DecidableEq, Repr

structure PeerId where
  bytes : Bytes
  deriving DecidableEq, Repr

structure MessageId where
  bytes : Bytes
  deriving DecidableEq, Repr

structure Multiaddr where
  text : String
  deriving DecidableEq, Repr

inductive NetworkMsg where
  | transactionBatch (batch : MempoolTransactionBatch)
  deriving DecidableEq, Repr

/-- An event emitted by the gossip layer. -/
inductive Event where
  | listening (address : Multiaddr)
  | message (channel : Channel) (peer : PeerId) (id : MessageId) (msg : NetworkMsg)
  | peerConnected (peer : PeerId)
  | peerDisconnected (peer : PeerId)
  deriving DecidableEq, Repr

end Network

end MalachiteMempool
