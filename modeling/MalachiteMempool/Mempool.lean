import MalachiteMempool.Lib.Broadcast
import MalachiteMempool.Lib.IndexedQueue
import MalachiteMempool.Lib.Transition
import MalachiteMempool.Network.Messages
import Mathlib.Data.Finset.Card

/-! # The mempool actor

One handler per message of `fifo-mempool/src/mempool.rs`.  A handler returns
the state it leaves, what it sends to the outside and whether it returned
`Err`; a panic is `none`.  Early returns on a failed reply keep the state
changes made before them, as in the source.

What a handler reads from its surroundings is an `Env`: the order in which the
hash map hands out its entries, how many references to a reply port are alive,
whether the caller behind a port is gone, and whether the network actor takes
casts.  None of it is determined by the message, so runs quantify over it.
-/

namespace MalachiteMempool

open IndexedQueue

/-- Identity of an `RpcReplyPort`. -/
abbrev PortId := Nat

/-- An `Arc<RpcReplyPort<..>>` as its holder sees it when it is unwrapped. -/
structure Arc where
  port : PortId
  strong : Nat
  deriving DecidableEq, Repr

def Arc.new (port : PortId) : Arc := ⟨port, 1⟩

abbrev CheckTxReply := Option Arc

/-- Events of the mempool's output port.  The reply is the port the event's
    `Arc` points to. -/
inductive Event where
  | checkTx (tx : RawTx) (reply : Option PortId)
  deriving DecidableEq, Repr

/-- `tokio` keeps its ring at a power of two. -/
def ringSize (capacity : Nat) : Nat :=
  (((List.range 64).map (fun e => 2 ^ e)).find? (fun size => capacity ≤ size)).getD capacity

/-- `OutputPort<Arc<MempoolEvent>>`, a thin layer over a broadcast channel. -/
abbrev OutputPort := Broadcast.Channel Event

namespace OutputPort

def withCapacity (capacity : Nat) : OutputPort := { capacity := some (ringSize capacity) }

def default : OutputPort := withCapacity 10

/-- A port that loses nothing, for compositions that assume one. -/
def unbounded : OutputPort := { capacity := none }

/-- A port with this many subscribers, none of which is behind. -/
def subscribed (port : OutputPort) (subscribers : Nat) : OutputPort :=
  { port with receivers := List.replicate subscribers {} }

/-- Nothing is sent while nobody is subscribed. -/
def send (port : OutputPort) (event : Event) : OutputPort :=
  if 0 < port.receivers.length then Broadcast.Channel.send port event else port

end OutputPort

structure State where
  outputPort : OutputPort
  txs : List RawTx
  txHashes : Index TxHash

def State.default : State := { outputPort := OutputPort.default, txs := [], txHashes := ∅ }

/-- `State::exists`. -/
def State.has (s : State) (tx : TxHash) : Bool := decide (tx ∈ s.txHashes)

inductive Msg where
  | subscribe
  | networkEvent (event : Network.Event)
  | add (tx : RawTx) (reply : PortId)
  | checkTxResult (tx : RawTx) (result : AppResult) (reply : Option PortId)
  | take (reply : PortId)
  | remove (txHashes : List TxHash)

/-- `From<Arc<GossipNetworkEvent>> for Msg`. -/
def Msg.fromEvent (event : Network.Event) : Msg := .networkEvent event

/-- Everything the actor sends apart from its output port. -/
inductive Effect where
  | reply (port : PortId) (value : Except MempoolError CheckTxOutcome)
  | txs (port : PortId) (txs : List RawTx)
  | broadcast (batch : MempoolTransactionBatch)

inductive ActorProcessingErr where
  | replyNotSent (port : PortId)
  deriving DecidableEq, Repr

abbrev ActorResult := Except ActorProcessingErr Unit

structure Env where
  order : IterOrder TxHash
  strong : PortId → Nat
  closed : PortId → Bool
  networkUp : Bool

/-- What a handler leaves behind. -/
structure Handled where
  state : State
  effects : List Effect
  result : ActorResult

/-- The result of sending on a port: it fails once the caller is gone. -/
def sent (env : Env) (port : PortId) : ActorResult :=
  if env.closed port then .error (.replyNotSent port) else .ok ()

/-- `if let Some(reply) = reply { if let Ok(reply) = Arc::try_unwrap(reply) { reply.send(..)? } }`:
    an absent or shared reply is skipped without an error. -/
def answer (env : Env) (reply : CheckTxReply) (value : Except MempoolError CheckTxOutcome)
    (s : State) (before : List Effect) : Handled :=
  match reply with
  | some arc =>
      if arc.strong = 1 then ⟨s, before ++ [.reply arc.port value], sent env arc.port⟩
      else ⟨s, before, .ok ()⟩
  | none => ⟨s, before, .ok ()⟩

def addTx (config : MempoolConfig) (env : Env) (tx : RawTx) (reply : CheckTxReply) (s : State) :
    Handled :=
  if config.maxPoolSize ≤ s.txs.length then
    answer env reply (.error (.mempoolFull s.txs.length config.maxPoolSize)) s []
  else
    ⟨{ s with outputPort := s.outputPort.send (.checkTx tx (reply.map Arc.port)) }, [], .ok ()⟩

/-- Only batches carry a transaction; every other event is just logged. -/
def handleNetworkEvent (config : MempoolConfig) (env : Env) (event : Network.Event) (s : State) :
    Handled :=
  match event with
  | .message _ _ _ (.transactionBatch batch) =>
      addTx config env ⟨batch.transactionBatch.value⟩ none s
  | _ => ⟨s, [], .ok ()⟩

def batchOf (tx : RawTx) : MempoolTransactionBatch :=
  ⟨{ typeUrl := "mempool.transaction", value := tx.toVec }⟩

/-- A failed cast is logged and forgotten. -/
def gossipTx (env : Env) (tx : RawTx) : List Effect :=
  if env.networkUp then [.broadcast (batchOf tx)] else []

def handleCheckTxResult (env : Env) (tx : RawTx) (result : AppResult) (reply : CheckTxReply)
    (s : State) : Handled :=
  match result with
  | .ok checkTxOutcome =>
      let txHash := checkTxOutcome.hash
      if checkTxOutcome.isValid then
        if s.has txHash then
          answer env reply (.error (.txAlreadyExists txHash)) s []
        else
          let inserted := { s with
            txHashes := s.txHashes.insert txHash s.txs.length
            txs := s.txs ++ [tx] }
          -- only transactions received from the local endpoint are gossiped
          let gossiped := if reply.isSome then gossipTx env tx else []
          answer env reply (.ok checkTxOutcome) inserted gossiped
      else answer env reply (.ok checkTxOutcome) s []
  | .error appError => answer env reply (.error (.invalidTransaction appError)) s []

/-- The loop of `take`: the budget shrinks before it is tested. -/
def takeTxs (maxTxBytes : Nat) : List RawTx → List RawTx
  | [] => []
  | tx :: rest =>
      let left := maxTxBytes - tx.len
      if left = 0 then [] else tx :: takeTxs left rest

def take (config : MempoolConfig) (env : Env) (s : State) (reply : PortId) : Handled :=
  ⟨s, [.txs reply (takeTxs config.maxTxsBytes s.txs)], sent env reply⟩

/-- First loop of `remove`: forget one hash and note the position it had. -/
def forget (acc : Index TxHash × Finset Nat) (txHash : TxHash) : Index TxHash × Finset Nat :=
  match acc.1.lookup txHash with
  | some index => (acc.1.erase txHash, insert index acc.2)
  | none => acc

/-- The queue and the index under construction in the second loop of `remove`. -/
structure Rebuilt where
  newTxs : List RawTx := []
  newHashes : Index TxHash := ∅
  counter : Nat := 0

/-- Second loop of `remove`: `none` is an access out of range. -/
def rebuild (txs : List RawTx) (ignore : Finset Nat) (acc : Rebuilt) (entry : Entry TxHash) :
    Option Rebuilt :=
  if entry.2 ∈ ignore then some acc
  else txs[entry.2]?.map (fun tx =>
    { newTxs := acc.newTxs ++ [tx]
      newHashes := acc.newHashes.insert entry.1 acc.counter
      counter := acc.counter + 1 })

/-- The capacities `txs.len() - ignore.len()` underflow, and so panic, when
    more positions are ignored than there are. -/
def remove (env : Env) (txHashes : List TxHash) (s : State) : Option Handled :=
  let (kept, ignore) := txHashes.foldl forget (s.txHashes, ∅)
  if s.txs.length < ignore.card then none
  else ((env.order.arrange kept.entries).foldlM (rebuild s.txs ignore) {}).map (fun rebuilt =>
    ⟨{ s with txs := rebuilt.newTxs, txHashes := rebuilt.newHashes }, [], .ok ()⟩)

def handleMsg (config : MempoolConfig) (env : Env) (msg : Msg) (s : State) : Option Handled :=
  match msg with
  | .subscribe => some ⟨{ s with outputPort := s.outputPort.subscribe }, [], .ok ()⟩
  | .networkEvent event => some (handleNetworkEvent config env event s)
  | .add tx reply => some (addTx config env tx (some (Arc.new reply)) s)
  | .checkTxResult tx result reply =>
      some (handleCheckTxResult env tx result (reply.map (fun port => ⟨port, env.strong port⟩)) s)
  | .take reply => some (take config env s reply)
  | .remove txHashes => remove env txHashes s

/-- One handled message.  `Mempool::handle` logs an `Err` of `handle_msg` and
    goes on, so the record keeps no result. -/
structure Record where
  before : State
  msg : Msg
  after : State
  effects : List Effect

/-- The actor's state with everything it has handled so far. -/
structure History where
  state : State
  log : List Record

namespace History

def init (s : State) : History := ⟨s, []⟩

def handle (config : MempoolConfig) (env : Env) (msg : Msg) (h : History) : Option History :=
  (handleMsg config env msg h.state).map (fun handled =>
    ⟨handled.state, h.log ++ [⟨h.state, msg, handled.state, handled.effects⟩]⟩)

end History

/-- The actor by itself: any message may arrive next, in any surroundings. -/
def actor (config : MempoolConfig) : Transition.System History (Env × Msg) where
  step h label := h.handle config label.1 label.2

end MalachiteMempool
