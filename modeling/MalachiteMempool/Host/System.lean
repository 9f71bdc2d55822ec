import MalachiteMempool.Host.Rpc
import MalachiteMempool.Node.Delivery

/-! # A test node with an RPC client

The mempool node, the `Rpc` actor and one client that makes one call at a time.
The steps of the node are free: peers, removals and other users of the mempool
are part of it.

A call of `add_tx` is the request, the task that `call_and_forward` spawned for
it, and the return.  The task ends when the reply port is used, after
forwarding the reply, or when the port is dropped, without forwarding anything.
The mempool, the app and the `Rpc` actor keep running and take every message,
so sending does not fail: no case stands for an actor that has died.
-/

namespace MalachiteMempool

open Host

/-- A reply port that nobody holds can no longer be used. -/
def Node.holds (n : Node) (reply : PortId) : Bool :=
  (n.mailbox.filterMap Msg.request).any (fun t => t.1 == reply) || decide (0 < n.refs reply)

namespace Host

/-- What the client is waiting for. -/
inductive Client where
  | idle
  | adding (tx : TestTx) (reply : PortId)
  /-- The task of `add_tx` has finished. -/
  | added (tx : TestTx) (call : CallResult (Except String Unit))
  | asking (reply : PortId)
  /-- The reply of `get_state` is there. -/
  | told (outcome : Option TestCheckTxOutcome)
  deriving DecidableEq, Repr

/-- A reply reaches the client that waits on its port. -/
def Client.receive (client : Client) (reply : Option (PortId × Option TestCheckTxOutcome)) :
    Client :=
  match client, reply with
  | .asking port, some (port', outcome) => if port' = port then .told outcome else .asking port
  | client, _ => client

structure TestNode where
  node : Node
  /-- Messages to the `Rpc` actor, oldest first. -/
  mailbox : List RpcMsg
  state : Option TestCheckTxOutcome
  /-- What the `Rpc` actor has handled. -/
  handled : List RpcMsg
  client : Client
  /-- The calls of `add_tx` that have returned, and what they returned. -/
  added : List (TestTx × Except RpcError Unit)
  /-- What each call of `get_state` returned, with the last transaction that
      `add_tx` had reported as added by then. -/
  asked : List (Option TestTx × Except RpcError (Option TestCheckTxOutcome))

namespace TestNode

inductive Label where
  | node (label : MalachiteMempool.Label)
  /-- The client calls `add_tx`. -/
  | addTx (tx : TestTx)
  /-- The task that waits on the reply port ends. -/
  | resolve
  | addTxReturns
  /-- The client calls `get_state`. -/
  | getState
  /-- The `Rpc` actor handles its next message. -/
  | rpc
  | getStateReturns

def start (port : OutputPort) (subscribers : Nat) : TestNode where
  node := Node.start port subscribers
  mailbox := []
  state := none
  handled := []
  client := .idle
  added := []
  asked := []

/-- The transactions that `add_tx` has reported as added. -/
def succeeded (t : TestNode) : List TestTx :=
  t.added.filterMap (fun call => match call.2 with | .ok () => some call.1 | .error _ => none)

def step (config : MempoolConfig) (debug : Bytes → String) (t : TestNode) :
    Label → Option TestNode
  | .node label => (Node.step config t.node label).map (fun node => { t with node := node })
  | .addTx tx =>
      match t.client with
      | .idle =>
          (Node.step config t.node (.add tx.serialize)).map (fun node =>
            { t with node := node, client := .adding tx t.node.asked.length })
      | _ => none
  | .resolve =>
      match t.client with
      | .adding tx reply =>
          match t.node.replies.lookup reply with
          | some outcome =>
              some { t with
                mailbox := t.mailbox ++ [Rpc.forwarded debug tx outcome]
                client := .added tx (.success (.ok ())) }
          | none =>
              if t.node.holds reply then none else some { t with client := .added tx .senderError }
      | _ => none
  | .addTxReturns =>
      match t.client with
      | .added tx call =>
          some { t with client := .idle, added := t.added ++ [(tx, Rpc.addTx (.ok ()) (.ok call))] }
      | _ => none
  | .getState =>
      match t.client with
      | .idle =>
          some { t with
            mailbox := t.mailbox ++ [.getState t.asked.length]
            client := .asking t.asked.length }
      | _ => none
  | .rpc =>
      match t.mailbox with
      | [] => none
      | msg :: rest =>
          let outcome := Rpc.handle (fun _ => .ok ()) msg t.state
          some { t with
            mailbox := rest
            state := outcome.state
            handled := t.handled ++ [msg]
            client := t.client.receive outcome.reply }
  | .getStateReturns =>
      match t.client with
      | .told outcome =>
          (Rpc.getState (.ok (.success outcome))).map (fun returned =>
            { t with client := .idle, asked := t.asked ++ [(t.succeeded.getLast?, returned)] })
      | _ => none

def system (config : MempoolConfig) (debug : Bytes → String) :
    Transition.System TestNode Label where
  step := step config debug

end TestNode

end Host

end MalachiteMempool
