import MalachiteMempool.Host.App
import MalachiteMempool.Pool.Handling

/-! # A node: the mempool, its subscribers and their messages in flight

The mempool actor, the output port with one forwarding task per subscriber,
and the subscribed app actors.  Mailboxes are queues; clients, the network and
the users of the apps put messages into them at any time, and every actor and
task takes its next message at any time, so a list of labels is an
interleaving.

The actors keep running: the link by which the mempool would stop with its
network actor is left out.  Several subscribers each get the event, as those
that clone it do; that the host's app panics on an event it shares is part of
the forwarding tasks in `Network/OutputPort`, and a host node has one app.

The reply port of an `Add` lives in an `Arc` that travels with the event and
with the check result.  Its reference count is the number of places that hold
it: events a subscriber has not received yet, checks in app mailboxes, and
results in the mempool's mailbox.  The ring of the output port keeps an event
once for all the subscribers that wait for it, while the count here has it once
for each of them; `Arc::try_unwrap` asks only whether nobody else holds the
port, which both counts answer alike.
-/

namespace MalachiteMempool

open Host

def Host.AppMsg.check : AppMsg → Option Check
  | .mempoolEvent event => some event.check
  | _ => none

structure Node where
  pool : History
  /-- Messages to the mempool, oldest first. -/
  mailbox : List Msg
  /-- The mailbox of each subscribed app. -/
  apps : List (List AppMsg)
  /-- Everything the apps have cast to the mempool, with the app's position. -/
  appSent : List (Nat × Msg)
  /-- The transactions of all local `Add`s; the position is the reply port. -/
  asked : List RawTx

/-- What a scheduler chooses when the mempool handles a message. -/
structure Surroundings where
  order : IndexedQueue.IterOrder TxHash
  closed : PortId → Bool
  networkUp : Bool

/-- Nothing unusual; the hash map hands out its newest entry first. -/
def Surroundings.calm : Surroundings where
  order := IndexedQueue.IterOrder.stored TxHash
  closed := fun _ => false
  networkUp := true

inductive Label where
  /-- A client sends `Add` with a fresh reply port. -/
  | add (tx : RawTx)
  /-- The network actor publishes an event. -/
  | gossip (event : Network.Event)
  /-- Somebody sends `Remove` or `Take` to the mempool directly. -/
  | remove (hashes : List TxHash)
  | take (reply : PortId)
  /-- A user of an app sends it `Remove` or `Take`. -/
  | appRemove (app : Nat) (hashes : List TestTxHash)
  | appTake (app : Nat) (reply : PortId)
  /-- The mempool handles its next message. -/
  | handle (around : Surroundings)
  /-- The forwarding task of a subscriber receives from the output port. -/
  | forward (app : Nat)
  /-- An app handles its next message, checking as given. -/
  | app (app : Nat) (check : RawTx → AppResult)

namespace Node

/-- A node with this output port and this many subscribed apps. -/
def start (port : OutputPort) (subscribers : Nat) : Node where
  pool := History.init { State.default with outputPort := port.subscribed subscribers }
  mailbox := []
  apps := List.replicate subscribers []
  appSent := []
  asked := []

abbrev port (n : Node) : OutputPort := n.pool.state.outputPort

def setPort (n : Node) (port : OutputPort) : Node :=
  { n with pool := { n.pool with state := { n.pool.state with outputPort := port } } }

/-- All checks under way. -/
def checks (n : Node) : List Check :=
  n.port.waiting.map Event.check ++ n.apps.flatMap (fun box => box.filterMap AppMsg.check) ++
    n.mailbox.filterMap Msg.check

/-- `Arc::strong_count` of a reply port. -/
def refs (n : Node) (port : PortId) : Nat := n.checks.countP (fun check => check.2 == some port)

def env (n : Node) (around : Surroundings) : Env where
  order := around.order
  strong := n.refs
  closed := around.closed
  networkUp := around.networkUp

def post (n : Node) (msg : Msg) : Node := { n with mailbox := n.mailbox ++ [msg] }

def postApp (n : Node) (app : Nat) (msg : AppMsg) : Option Node :=
  n.apps[app]?.map (fun box => { n with apps := n.apps.set app (box ++ [msg]) })

def step (config : MempoolConfig) (n : Node) : Label → Option Node
  | .add tx => some { n.post (.add tx n.asked.length) with asked := n.asked ++ [tx] }
  | .gossip event => some (n.post (.networkEvent event))
  | .remove hashes => some (n.post (.remove hashes))
  | .take reply => some (n.post (.take reply))
  | .appRemove app hashes => n.postApp app (.remove hashes)
  | .appTake app reply => n.postApp app (.take reply)
  | .handle around =>
      match n.mailbox with
      | [] => none
      | msg :: rest =>
          (n.pool.handle config (n.env around) msg).map (fun pool =>
            { n with pool := pool, mailbox := rest })
  | .forward app =>
      (n.port.recv app).bind (fun received =>
        match received.1 with
        | none => some (n.setPort received.2)
        | some event => (n.setPort received.2).postApp app (.mempoolEvent event))
  | .app app check =>
      match n.apps[app]? with
      | some (msg :: rest) =>
          some { n.post (appHandle check msg) with
            apps := n.apps.set app rest
            appSent := n.appSent ++ [(app, appHandle check msg)] }
      | _ => none

def system (config : MempoolConfig) : Transition.System Node Label where
  step := step config

end Node

end MalachiteMempool
