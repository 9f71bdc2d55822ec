import MalachiteMempool.Mempool

/-! # The host application

`host-integration/src/app.rs`: transactions are 64-bit numbers, a hash is the
number itself, and one number is refused.  The app actor answers every message
it handles with exactly one message to the mempool.
-/

namespace MalachiteMempool.Host

structure TestTx where
  id : UInt64
  deriving DecidableEq, Repr

structure TestTxHash where
  id : UInt64
  deriving DecidableEq, Repr

/-- `u64::to_le_bytes`. -/
def toLeBytes (value : UInt64) : Bytes :=
  (List.range 8).map (fun i => UInt8.ofNat (value.toNat / 256 ^ i))

/-- `u64::from_le_bytes`. -/
def fromLeBytes (bytes : Bytes) : UInt64 :=
  UInt64.ofNat (bytes.foldr (fun byte value => byte.toNat + 256 * value) 0)

/-- `From<TestTxHash> for TxHash`. -/
def TestTxHash.toTxHash (hash : TestTxHash) : TxHash := ⟨toLeBytes hash.id⟩

inductive AppError where
  | deserializationFailed (details : String)
  deriving DecidableEq, Repr

def AppError.toString : AppError → String
  | .deserializationFailed details => "Transaction deserialization failed: " ++ details

namespace TestTx

def serialize (tx : TestTx) : RawTx := ⟨toLeBytes tx.id⟩

def deserialize (bytes : Bytes) : Except AppError TestTx :=
  if bytes.length = 8 then .ok ⟨fromLeBytes bytes⟩
  else .error (.deserializationFailed "Expected 8 bytes for TestTx deserialization")

def hash (tx : TestTx) : TestTxHash := ⟨tx.id⟩

end TestTx

inductive TestCheckTxOutcome where
  | success (hash : TestTxHash)
  | error (hash : TestTxHash) (reason : String)
  deriving DecidableEq, Repr

/-- `CheckTxOutcome for TestCheckTxOutcome`. -/
def TestCheckTxOutcome.outcome : TestCheckTxOutcome → CheckTxOutcome
  | .success hash => { isValid := true, hash := hash.toTxHash }
  | .error hash _ => { isValid := false, hash := hash.toTxHash }

/-- `TestMempoolApp::check_tx`. -/
def checkTx (tx : RawTx) : AppResult :=
  match TestTx.deserialize tx.bytes with
  | .ok testTx =>
      if testTx.id = 9999 then
        .ok (TestCheckTxOutcome.error testTx.hash "Transaction 9999 is not allowed").outcome
      else .ok (TestCheckTxOutcome.success testTx.hash).outcome
  | .error e => .error e.toString

inductive AppMsg where
  | mempoolEvent (event : Event)
  | take (reply : PortId)
  | remove (hashes : List TestTxHash)

/-- `TestMempoolAppActor::handle`, for any `check_tx`: the message it casts to
    the mempool.  A check result carries the transaction and the reply of its
    event. -/
def appHandle (check : RawTx → AppResult) : AppMsg → Msg
  | .mempoolEvent (.checkTx tx reply) => .checkTxResult tx (check tx) reply
  | .remove hashes => .remove (hashes.map TestTxHash.toTxHash)
  | .take reply => .take reply

end MalachiteMempool.Host
