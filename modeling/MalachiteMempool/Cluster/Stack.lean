import MalachiteMempool.Cluster.System
import MalachiteMempool.Network.Pipeline

/-! # The nodes on their real network

`Cluster` has a gossip layer that hands any broadcast of one node to any other.
Here every node has its network actor, with the swarm loop, `recv_task` and all
the queues in between, and gossipsub carries bytes: what a loop published, to
another loop, in any order and any number of times, unless it is larger than
gossipsub transmits.

The mempool subscribes to the network actor when it starts, so it is the first
receiver of that actor's output port; its broadcasts are casts to the actor, and
they succeed or fail as the state of the actor says.  When the actor is gone a
mempool may go on here, while the real one, linked to it, stops.

Seen through their mempools, these nodes do nothing that the nodes of a
`Cluster` cannot do.
-/

namespace MalachiteMempool

open Network

/-- `behaviour.rs`: the largest message gossipsub transmits. -/
def MAX_TRANSMIT_SIZE : Nat := 4 * 1024 * 1024

/-- A node with its network actor. -/
structure Peer where
  node : Node
  net : Tasks
  /-- The mempool's `pre_start` has run. -/
  joined : Bool
  /-- The acceptable messages that gossipsub has brought to the swarm loop. -/
  arrived : List Network.Event

namespace Peer

def start (port : OutputPort) (capacities : Capacities) : Peer where
  node := Node.start port 1
  net := Tasks.start capacities
  joined := false
  arrived := []

/-- A cast to the network actor. -/
def castNet (net : Tasks) (msg : Network.Msg) : Tasks :=
  if net.actor.dead then net else net.post msg

/-- The mempool starts, and subscribes to the network actor. -/
def join (p : Peer) : Option Peer :=
  if p.joined then none else some { p with net := castNet p.net .subscribe, joined := true }

/-- Network events reach the mempool only through the network actor, and a cast
    to that actor has the outcome its state allows. -/
def may (p : Peer) : MalachiteMempool.Label → Bool
  | .gossip _ => false
  | .handle around => p.net.actor.mayAnswer around.networkUp
  | _ => true

/-- A step of the mempool's side; what it broadcasts is cast to the network actor. -/
def act (config : MempoolConfig) (p : Peer) (label : MalachiteMempool.Label) : Option Peer :=
  if p.joined && p.may label then
    (Node.step config p.node label).map (fun node =>
      { p with
        node := node
        net := (node.broadcasts.drop p.node.broadcasts.length).foldl
          (fun net batch => castNet net (.broadcast batch)) p.net })
  else none

/-- Steps of the network side that are neither casts to the actor nor messages. -/
def own : Tasks.Label → Bool
  | .request _ => false
  | .swarmEvent (.gossipSub (.message _ _)) => false
  | _ => true

def turn (p : Peer) (label : Tasks.Label) : Option Peer :=
  if own label then (p.net.step label).map (fun net => { p with net := net }) else none

/-- Gossipsub has a message for the loop. -/
def receive (p : Peer) (id : MessageId) (message : GossipSub.Message) : Option Peer :=
  (p.net.step (.swarmEvent (.gossipSub (.message id message)))).map (fun net =>
    { p with
      net := net
      arrived := p.arrived ++ (SwarmEvent.gossiped (.gossipSub (.message id message))).toList })

/-- The mempool's forwarding task receives from the network actor's output port
    and casts what it gets to the mempool.  The port is dropped when `post_stop`
    returns, or when the actor fails. -/
def relay (p : Peer) : Option Peer :=
  match p.net.state with
  | .stopped => none
  | .running peers outputPort =>
      if p.net.actor.dead then none
      else (outputPort.recv 0).map (fun received =>
        let net := { p.net with state := .running peers received.2 }
        match received.1 with
        | none => { p with net := net }
        | some event => { p with node := p.node.post (.fromEvent event), net := net })

end Peer

structure Stack (ι : Type*) where
  peers : ι → Peer

namespace Stack

inductive Label (ι : Type*) where
  | join (peer : ι)
  | node (peer : ι) (label : MalachiteMempool.Label)
  | net (peer : ι) (label : Tasks.Label)
  /-- Gossipsub brings what one loop has published to another. -/
  | deliver (delivery : Delivery ι) (id : MessageId)
  | relay (peer : ι)

variable {ι : Type*}

def start (port : OutputPort) (capacities : Capacities) : Stack ι where
  peers := fun _ => Peer.start port capacities

variable [DecidableEq ι]

def set (s : Stack ι) (i : ι) (p : Peer) : Stack ι :=
  { s with peers := Function.update s.peers i p }

/-- A published message under the name of its origin; gossipsub does not bring a
    message back to where it came from. -/
def message (name : ι → PeerId) (s : Stack ι) (delivery : Delivery ι) : Option GossipSub.Message :=
  if delivery.origin = delivery.target then none
  else (s.peers delivery.origin).net.loop.published[delivery.index]?.bind (fun publication =>
    if publication.2.length ≤ MAX_TRANSMIT_SIZE then
      some { source := some (name delivery.origin), data := publication.2, topic := publication.1 }
    else none)

def step (config : MempoolConfig) (name : ι → PeerId) (s : Stack ι) : Label ι → Option (Stack ι)
  | .join i => (s.peers i).join.map (s.set i)
  | .node i label => ((s.peers i).act config label).map (s.set i)
  | .net i label => ((s.peers i).turn label).map (s.set i)
  | .deliver delivery id => (s.message name delivery).bind (fun message =>
      ((s.peers delivery.target).receive id message).map (s.set delivery.target))
  | .relay i => (s.peers i).relay.map (s.set i)

def system (config : MempoolConfig) (name : ι → PeerId) :
    Transition.System (Stack ι) (Label ι) where
  step := step config name

end Stack

/-! ## One node -/

/-- The network event a step brings to the mempool. -/
def Label.brings : Label → Option Network.Event
  | .gossip event => some event
  | _ => none

namespace Node

/-- The network events the mempool has been sent. -/
def heard (n : Node) : List Network.Event :=
  n.received.filterMap (fun msg => match msg with | .networkEvent event => some event | _ => none)

theorem heard_step {config : MempoolConfig} {n n' : Node} {label : Label}
    (h : step config n label = some n') :
    n'.heard = n.heard ++ label.brings.toList := by
  rw [heard, received_step h, List.filterMap_append, heard]
  congr 1
  cases label with
  | add | gossip | remove | take | appRemove | appTake | handle | forward => rfl
  | app app check =>
      simp only [posted]
      split
      · rename_i msg rest _
        cases msg with
        | mempoolEvent event => cases event; rfl
        | take reply => rfl
        | remove hashes => rfl
      · rfl

/-- Only a handled message makes broadcasts, and only when the network actor
    takes them. -/
theorem broadcasts_grow {config : MempoolConfig} {n n' : Node} {label : Label}
    (h : step config n label = some n') :
    n'.broadcasts = n.broadcasts ++ n'.broadcasts.drop n.broadcasts.length := by
  have longer : n.broadcasts <+: n'.broadcasts := by
    rcases handle_or_idle label with ⟨around, rfl⟩ | idle
    · obtain ⟨msg, rest, handled, _, _, rfl⟩ := handle_cases h
      simp [broadcasts, List.flatMap_append]
    · rw [broadcasts, broadcasts, (frame_step idle h).log]
  obtain ⟨new, isNew⟩ := longer
  rw [← isNew, List.drop_left]

end Node

namespace Peer

/-- What the mempool has broadcast, as it is published. -/
def offered (p : Peer) : List (TopicHash × Bytes) := p.node.broadcasts.map publicationOf

/-- The messages the mempool has been sent, and those on their way to it. -/
def inbound (p : Peer) : List Network.Event :=
  p.node.heard.filter Event.isMessage ++ p.net.incoming

/-- What a step of one peer does to its two pipelines. -/
structure Advances (p p' : Peer) : Prop where
  grows : p.node.broadcasts <+: p'.node.broadcasts
  publishes : p.net.loop.published <+: p'.net.loop.published
  carries : p.net.Carries p.offered → p'.net.Carries p'.offered
  inbound : ∃ added, p'.arrived = p.arrived ++ added ∧ p'.inbound.Sublist (p.inbound ++ added)

theorem castNet_upstream (net : Tasks) {msg : Network.Msg}
    (ordinary : ∀ event, msg ≠ .newEvent event) :
    (castNet net msg).upstream = net.upstream := Tasks.upstream_request ordinary

theorem castNet_carries {net : Tasks} {offered : List (TopicHash × Bytes)}
    (carries : net.Carries offered) (msg : Network.Msg) :
    (castNet net msg).Carries (offered ++ msg.publication.toList) :=
  Tasks.carries_request carries msg

theorem castNet_loop (net : Tasks) (msg : Network.Msg) : (castNet net msg).loop = net.loop := by
  rw [castNet]
  split <;> rfl

theorem castBatches_loop (net : Tasks) (batches : List MempoolTransactionBatch) :
    (batches.foldl (fun net batch => castNet net (.broadcast batch)) net).loop = net.loop := by
  induction batches generalizing net with
  | nil => rfl
  | cons batch rest ih => rw [List.foldl_cons, ih, castNet_loop]

theorem castBatches_upstream (net : Tasks) (batches : List MempoolTransactionBatch) :
    (batches.foldl (fun net batch => castNet net (.broadcast batch)) net).upstream =
      net.upstream := by
  induction batches generalizing net with
  | nil => rfl
  | cons batch rest ih =>
      rw [List.foldl_cons, ih]
      exact castNet_upstream net (by simp)

theorem castBatches_carries {net : Tasks} {offered : List (TopicHash × Bytes)}
    (carries : net.Carries offered) (batches : List MempoolTransactionBatch) :
    (batches.foldl (fun net batch => castNet net (.broadcast batch)) net).Carries
      (offered ++ batches.map publicationOf) := by
  induction batches generalizing net offered with
  | nil => simpa using carries
  | cons batch rest ih =>
      have later := ih (castNet_carries carries (.broadcast batch))
      simpa [Msg.publication] using later

variable {config : MempoolConfig} {p p' : Peer}

theorem join_advances (h : p.join = some p') : p.Advances p' := by
  rw [join] at h
  split at h
  · cases h
  · obtain rfl := Option.some.inj h
    refine ⟨List.prefix_rfl, by rw [castNet_loop], ?_, [], by simp, ?_⟩
    · intro carries
      have same := castNet_carries carries .subscribe
      rw [Msg.publication, Option.toList_none, List.append_nil] at same
      · exact same
      · simp
    · have same : (castNet p.net .subscribe).upstream = p.net.upstream :=
        castNet_upstream p.net (by simp)
      simp [inbound, Tasks.incoming, same]

theorem act_cases {label : MalachiteMempool.Label} (h : p.act config label = some p') :
    ∃ node, Node.step config p.node label = some node ∧ (∀ event, label ≠ .gossip event) ∧
      p' = { p with
        node := node
        net := (node.broadcasts.drop p.node.broadcasts.length).foldl
          (fun net batch => castNet net (.broadcast batch)) p.net } := by
  rw [act] at h
  split at h
  · rename_i allowed
    obtain ⟨node, taken, rfl⟩ := Option.map_eq_some_iff.mp h
    refine ⟨node, taken, ?_, rfl⟩
    rintro event rfl
    simp [may] at allowed
  · cases h

theorem act_advances {label : MalachiteMempool.Label} (h : p.act config label = some p') :
    p.Advances p' := by
  obtain ⟨node, taken, ungossiped, rfl⟩ := act_cases h
  have grown := Node.broadcasts_grow taken
  refine ⟨⟨_, grown.symm⟩, by rw [castBatches_loop], ?_, [], by simp, ?_⟩
  · intro carries
    have posted := castBatches_carries carries (node.broadcasts.drop p.node.broadcasts.length)
    rw [offered, ← List.map_append, ← grown] at posted
    exact posted
  · have heard := Node.heard_step taken
    have quiet : label.brings = none := by
      cases label with
      | gossip event => exact absurd rfl (ungossiped event)
      | add | remove | take | appRemove | appTake | handle | forward | app => rfl
    rw [quiet, Option.toList_none, List.append_nil] at heard
    rw [inbound, Tasks.incoming, castBatches_upstream, heard, List.append_nil]
    exact List.Sublist.refl _

theorem turn_advances {label : Tasks.Label} (h : p.turn label = some p') : p.Advances p' := by
  rw [turn] at h
  split at h
  · rename_i isOwn
    obtain ⟨net, taken, rfl⟩ := Option.map_eq_some_iff.mp h
    have unasked : ∀ msg, label ≠ .request msg := by
      rintro msg rfl
      simp [own] at isOwn
    have quiet : label.gossiped = none := by
      cases label with
      | swarmEvent event =>
          cases event with
          | gossipSub event =>
              cases event with
              | message id message => simp [own] at isOwn
              | subscribed | unsubscribed | other => rfl
          | newListenAddr | identify | ping | other => rfl
      | request | requestStop | listen | recvCtrl | sendEvent | recvEvent | cast | handle
        | sendBroadcast | stop | sendShutdown | join | awaitRecvTask => rfl
    refine ⟨List.prefix_rfl, Tasks.step_published taken,
      fun carries => Tasks.carries_unasked unasked carries taken, [], by simp, ?_⟩
    have kept := Tasks.incoming_step (fun event => unasked (.newEvent event)) taken
    rw [quiet] at kept
    rw [List.append_nil]
    exact List.Sublist.append_left (by simpa using kept) _
  · cases h

theorem receive_advances {id : MessageId} {message : GossipSub.Message}
    (h : p.receive id message = some p') :
    p.Advances p' ∧ p'.arrived =
      p.arrived ++ (SwarmEvent.gossiped (.gossipSub (.message id message))).toList := by
  obtain ⟨net, taken, rfl⟩ := Option.map_eq_some_iff.mp h
  have carries : p.net.Carries p.offered → net.Carries p.offered :=
    fun carries => Tasks.carries_unasked (by simp) carries taken
  refine ⟨⟨List.prefix_rfl, Tasks.step_published taken, carries, _, rfl, ?_⟩, rfl⟩
  have kept : net.incoming.Sublist (p.net.incoming ++ _) :=
    Tasks.incoming_step (a := .swarmEvent (.gossipSub (.message id message))) (by simp) taken
  rw [inbound, inbound, List.append_assoc]
  exact List.Sublist.append_left kept _

/-- The relayed event is the oldest on its way, and for the mempool the relay is
    a step of its node. -/
theorem relay_cases (config : MempoolConfig) (h : p.relay = some p') :
    ∃ net, (∀ offered, p.net.Carries offered → net.Carries offered) ∧ net.loop = p.net.loop ∧
      ((p' = { p with net := net } ∧ net.upstream = p.net.upstream) ∨
        ∃ event node, Node.step config p.node (.gossip event) = some node ∧
          p.net.upstream = event :: net.upstream ∧ p' = { p with node := node, net := net }) := by
  rw [relay] at h
  split at h
  · cases h
  · rename_i peers outputPort running
    split at h
    · cases h
    · obtain ⟨⟨got, port⟩, received, rfl⟩ := Option.map_eq_some_iff.mp h
      refine ⟨{ p.net with state := .running peers port }, ?_, rfl, ?_⟩
      · intro offered carries
        exact ⟨carries.published, carries.underway, carries.whole, by simp⟩
      · obtain ⟨r, r', present, rfl, _, moved⟩ := Broadcast.Channel.recv_cases received
        obtain ⟨capacity, receivers⟩ := outputPort
        cases receivers with
        | nil => simp at present
        | cons first rest =>
            obtain rfl : first = r := by simpa using present
            rcases moved with ⟨rfl, same⟩ | ⟨event, rfl, taken⟩
            · refine .inl ⟨rfl, ?_⟩
              simp [Tasks.upstream, running, ActorState.pending, same]
            · refine .inr ⟨event, p.node.post (.fromEvent event), rfl, ?_, rfl⟩
              simp [Tasks.upstream, running, ActorState.pending, taken]

theorem relay_advances (config : MempoolConfig) (h : p.relay = some p') : p.Advances p' := by
  obtain ⟨net, carries, loop, outcome⟩ := relay_cases config h
  rcases outcome with ⟨rfl, same⟩ | ⟨event, node, stepped, oldest, rfl⟩
  · refine ⟨List.prefix_rfl, by rw [loop], carries _, [], by simp, ?_⟩
    simp [inbound, Tasks.incoming, same]
  · have quiet : node.broadcasts = p.node.broadcasts := by
      rw [Node.broadcasts, Node.broadcasts, (Node.frame_step (by simp) stepped).log]
    refine ⟨by rw [quiet], by rw [loop], ?_, [], by simp, ?_⟩
    · rw [offered, offered, quiet]
      exact carries _
    · rw [inbound, inbound, Node.heard_step stepped, Tasks.incoming, Tasks.incoming, oldest]
      cases isMessage : event.isMessage <;> simp [Label.brings, isMessage]

end Peer

end MalachiteMempool
