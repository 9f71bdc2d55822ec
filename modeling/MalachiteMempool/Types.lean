import Mathlib.Data.Nat.Notation

/-! # Transactions, outcomes and errors

The data types of `fifo-mempool`.  A check outcome is a trait object in the
source; the mempool looks at it only through `is_valid` and `hash`, so it is
the pair of these two answers here.
-/

namespace MalachiteMempool

/-- `prost::bytes::Bytes`. -/
abbrev Bytes := List UInt8

structure TxHash where
  bytes : Bytes
  deriving DecidableEq, Repr

structure RawTx where
  bytes : Bytes
  deriving DecidableEq, Repr

namespace RawTx

def len (tx : RawTx) : Nat := tx.bytes.length

def toVec (tx : RawTx) : Bytes := tx.bytes

end RawTx

/-- What a `Box<dyn CheckTxOutcome>` answers. -/
structure CheckTxOutcome where
  isValid : Bool
  hash : TxHash
  deriving DecidableEq, Repr

/-- `AppResult<Box<dyn CheckTxOutcome>>`; an application error is used only
    through its text. -/
abbrev AppResult := Except String CheckTxOutcome

inductive MempoolError where
  | mempoolFull (currentSize maxSize : Nat)
  | invalidTransaction (reason : String)
  | txAlreadyExists (txHash : TxHash)
  deriving DecidableEq, Repr

structure MempoolConfig where
  maxTxsBytes : Nat
  maxTxsPerBlock : Nat
  maxPoolSize : Nat
  deriving DecidableEq, Repr

def MempoolConfig.default : MempoolConfig where
  maxTxsBytes := 4 * 1024 * 1024
  maxTxsPerBlock := 100
  maxPoolSize := 100000

end MalachiteMempool
