import MalachiteMempool.Host.App

/-! # The RPC endpoint

`host-integration/src/rpc.rs`.  `add_tx` submits a transaction to the mempool
with `call_and_forward`: a task waits on the reply port and forwards what comes
back to the `Rpc` actor, which remembers the last outcome for `get_state`.

Texts that other crates make of their own values come in as arguments.
-/

namespace MalachiteMempool

/-- `Display for TxHash`; `debug` is what `{:02x?}` makes of bytes. -/
def TxHash.toString (debug : Bytes → String) (hash : TxHash) : String :=
  "TxHash(" ++ debug hash.bytes ++ ")"

/-- `Display for MempoolError`. -/
def MempoolError.toString (debug : Bytes → String) : MempoolError → String
  | .mempoolFull currentSize maxSize =>
      "Mempool is full (current size: " ++ currentSize.repr ++ ", max: " ++ maxSize.repr ++ ")"
  | .invalidTransaction reason => "Invalid transaction data: " ++ reason
  | .txAlreadyExists txHash => "Transaction already exists: " ++ txHash.toString debug

namespace Host

inductive RpcError where
  | mempoolError (error : MempoolError)
  | actorError (details : String)
  deriving DecidableEq, Repr

/-- `ractor::rpc::CallResult`. -/
inductive CallResult (T : Type) where
  | success (value : T)
  | timeout
  | senderError
  deriving DecidableEq, Repr

inductive RpcMsg where
  | addTxReply (tx : TestTx) (outcome : TestCheckTxOutcome)
  | getState (reply : PortId)
  deriving DecidableEq, Repr

/-- The hash an outcome carries. -/
def TestCheckTxOutcome.hash : TestCheckTxOutcome → TestTxHash
  | .success hash => hash
  | .error hash _ => hash

namespace Rpc

/-- The closure of `add_tx` that makes a message of the mempool's reply. -/
def forwarded (debug : Bytes → String) (tx : TestTx) : Except MempoolError CheckTxOutcome → RpcMsg
  | .ok checkTxOutcome =>
      if checkTxOutcome.isValid then .addTxReply tx (.success tx.hash)
      else .addTxReply tx (.error tx.hash "Transaction validation failed")
  | .error mempoolError => .addTxReply tx (.error tx.hash (mempoolError.toString debug))

/-- What `add_tx` returns, from whether the request was sent and what joining
    the task gave: the result of the call itself is not looked at. -/
def addTx (sent : Except String Unit) (joined : Except String (CallResult (Except String Unit))) :
    Except RpcError Unit := do
  sent.mapError (fun e => .actorError ("Error when sending transaction to mempool: " ++ e))
  let _ ← joined.mapError (fun e => .actorError ("Error waiting for result: " ++ e))
  pure ()

/-- What `get_state` returns; `none` is the panic of `unwrap`. -/
def getState : Except String (CallResult (Option TestCheckTxOutcome)) →
    Option (Except RpcError (Option TestCheckTxOutcome))
  | .ok (.success outcome) => some (.ok outcome)
  | .ok _ => none
  | .error e => some (.error (.actorError e))

structure Handled where
  state : Option TestCheckTxOutcome
  reply : Option (PortId × Option TestCheckTxOutcome)
  result : Except String Unit

/-- `Rpc::handle`; `send` is what sending on a reply port gives. -/
def handle (send : PortId → Except String Unit) (msg : RpcMsg) (state : Option TestCheckTxOutcome) :
    Handled :=
  match msg with
  | .addTxReply _ outcome => ⟨some outcome, none, .ok ()⟩
  | .getState reply =>
      ⟨state, some (reply, state), (send reply).mapError (fun e => "Failed to send state: " ++ e)⟩

/-- Whatever the mempool answers, its forwarded form is about the transaction. -/
theorem forwarded_eq (debug : Bytes → String) (tx : TestTx)
    (outcome : Except MempoolError CheckTxOutcome) :
    ∃ told, forwarded debug tx outcome = .addTxReply tx told ∧ told.hash = tx.hash := by
  cases outcome with
  | error mempoolError => exact ⟨.error tx.hash _, rfl, rfl⟩
  | ok checkTxOutcome =>
      by_cases valid : checkTxOutcome.isValid = true
      · exact ⟨.success tx.hash, if_pos valid, rfl⟩
      · exact ⟨.error tx.hash _, if_neg valid, rfl⟩

end Rpc

end Host

end MalachiteMempool
