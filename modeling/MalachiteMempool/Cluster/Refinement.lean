import MalachiteMempool.Cluster.Convergence
import MalachiteMempool.Cluster.Stack

/-! # The real network refines the abstract gossip layer

The two pipelines of every node carry what they should, and whatever gossipsub
brings to a swarm loop decodes to a broadcast of the node it came from.  So an
event that reaches a mempool is either a delivery of the abstract gossip layer
or carries no transaction, and a run of the stack is a run of a `Cluster`.

What holds of every run of a cluster therefore holds here.  One such fact is
shown: no transaction is made up on the way.
-/

namespace MalachiteMempool

open Network

namespace Stack

variable {ι : Type*}

/-- The event is a broadcast of another node that its loop has published, as
    gossipsub brings it. -/
def Genuine (name : ι → PeerId) (s : Stack ι) (i : ι) (event : Network.Event) : Prop :=
  ∃ (origin : ι) (index : Nat) (id : MessageId) (batch : MempoolTransactionBatch),
    origin ≠ i ∧ event = Cluster.arrival (name origin) id batch ∧
      (s.peers origin).node.broadcasts[index]? = some batch ∧
      (s.peers origin).net.loop.published[index]? = some (publicationOf batch)

/-- Broadcasts and publications stay where they are. -/
theorem Genuine.mono {name : ι → PeerId} {s s' : Stack ι}
    (grows : ∀ j, (s.peers j).node.broadcasts <+: (s'.peers j).node.broadcasts)
    (publishes : ∀ j, (s.peers j).net.loop.published <+: (s'.peers j).net.loop.published) {i : ι}
    {event : Network.Event} (genuine : s.Genuine name i event) : s'.Genuine name i event := by
  obtain ⟨origin, index, id, batch, different, isArrival, found, published⟩ := genuine
  exact ⟨origin, index, id, batch, different, isArrival,
    Transition.found_of_grown (grows origin) found,
    Transition.found_of_grown (publishes origin) published⟩

structure Sound (name : ι → PeerId) (s : Stack ι) : Prop where
  carries : ∀ i, (s.peers i).net.Carries (s.peers i).offered
  ordered : ∀ i, (s.peers i).inbound.Sublist (s.peers i).arrived
  genuine : ∀ i, ∀ event ∈ (s.peers i).arrived, s.Genuine name i event

theorem sound_start (name : ι → PeerId) (port : OutputPort) (capacities : Capacities) :
    (start port capacities : Stack ι).Sound name where
  carries := fun _ => Tasks.carries_start capacities
  ordered := fun _ => List.Sublist.refl []
  genuine := by
    intro i event member
    cases member

variable [DecidableEq ι]

/-- A message on its way is a publication of its origin. -/
theorem message_cases {name : ι → PeerId} {s : Stack ι} {delivery : Delivery ι}
    {message : GossipSub.Message} (brought : s.message name delivery = some message) :
    delivery.origin ≠ delivery.target ∧ message.source = some (name delivery.origin) ∧
      message.data.length ≤ MAX_TRANSMIT_SIZE ∧
      (s.peers delivery.origin).net.loop.published[delivery.index]? =
        some (message.topic, message.data) := by
  rw [Stack.message] at brought
  split at brought
  · cases brought
  · rename_i different
    obtain ⟨publication, found, small⟩ := Option.bind_eq_some_iff.mp brought
    split at small
    · rename_i fits
      obtain rfl := Option.some.inj small
      exact ⟨different, rfl, fits, found⟩
    · cases small

/-- It decodes to the broadcast it was made of. -/
theorem Sound.message_genuine {name : ι → PeerId} {s : Stack ι} (sound : s.Sound name)
    {delivery : Delivery ι} {message : GossipSub.Message}
    (brought : s.message name delivery = some message) (id : MessageId) :
    ∃ batch, (s.peers delivery.origin).node.broadcasts[delivery.index]? = some batch ∧
      (s.peers delivery.origin).net.loop.published[delivery.index]? = some (publicationOf batch) ∧
      SwarmEvent.gossiped (.gossipSub (.message id message)) =
        some (Cluster.arrival (name delivery.origin) id batch) := by
  obtain ⟨_, source, fits, published⟩ := message_cases brought
  have offered := Transition.found_of_grown (sound.carries delivery.origin).published published
  rw [Peer.offered, List.getElem?_map] at offered
  obtain ⟨batch, found, same⟩ := Option.map_eq_some_iff.mp offered
  refine ⟨batch, found, by rw [published, ← same], ?_⟩
  obtain ⟨topic, data⟩ := Prod.mk.inj same
  have small : (wireBytes batch).length < 2 ^ 64 := by
    rw [data]
    exact Nat.lt_of_le_of_lt fits (by decide)
  have decoded := NetworkMsg.fromNetworkBytes_toNetworkBytes _ (toNetworkBytes_eq batch) small
  simp only [SwarmEvent.gossiped, source, ← data, decoded, ← topic, if_true]
  rfl

/-- Everything a step of the stack can do: one peer advances, and what arrives at
    it was brought by gossipsub. -/
theorem step_cases {config : MempoolConfig} {name : ι → PeerId} {s s' : Stack ι} {label : Label ι}
    (h : step config name s label = some s') :
    ∃ i p', s' = s.set i p' ∧ (s.peers i).Advances p' ∧
      (p'.arrived = (s.peers i).arrived ∨ ∃ delivery id message, delivery.target = i ∧
        s.message name delivery = some message ∧ p'.arrived = (s.peers i).arrived ++
          (SwarmEvent.gossiped (.gossipSub (.message id message))).toList) := by
  cases label with
  | join i =>
      obtain ⟨p', joins, rfl⟩ := Option.map_eq_some_iff.mp h
      refine ⟨i, p', rfl, Peer.join_advances joins, .inl ?_⟩
      rw [Peer.join] at joins
      split at joins
      · cases joins
      · obtain rfl := Option.some.inj joins
        rfl
  | node i label =>
      obtain ⟨p', acts, rfl⟩ := Option.map_eq_some_iff.mp h
      refine ⟨i, p', rfl, Peer.act_advances acts, .inl ?_⟩
      obtain ⟨_, _, _, rfl⟩ := Peer.act_cases acts
      rfl
  | net i label =>
      obtain ⟨p', turns, rfl⟩ := Option.map_eq_some_iff.mp h
      refine ⟨i, p', rfl, Peer.turn_advances turns, .inl ?_⟩
      rw [Peer.turn] at turns
      split at turns
      · obtain ⟨net, _, rfl⟩ := Option.map_eq_some_iff.mp turns
        rfl
      · cases turns
  | deliver delivery id =>
      obtain ⟨message, brought, h⟩ := Option.bind_eq_some_iff.mp h
      obtain ⟨p', receives, rfl⟩ := Option.map_eq_some_iff.mp h
      obtain ⟨advances, arrived⟩ := Peer.receive_advances receives
      exact ⟨delivery.target, p', rfl, advances,
        .inr ⟨delivery, id, message, rfl, brought, arrived⟩⟩
  | relay i =>
      obtain ⟨p', relays, rfl⟩ := Option.map_eq_some_iff.mp h
      refine ⟨i, p', rfl, Peer.relay_advances config relays, .inl ?_⟩
      obtain ⟨net, _, _, outcome⟩ := Peer.relay_cases config relays
      rcases outcome with ⟨rfl, _⟩ | ⟨event, node, _, _, rfl⟩ <;> rfl

theorem set_self (s : Stack ι) (i : ι) (p : Peer) : (s.set i p).peers i = p := by
  simp only [set, Function.update_self]

theorem set_of_ne (s : Stack ι) {i j : ι} (different : j ≠ i) (p : Peer) :
    (s.set i p).peers j = s.peers j := by
  simp only [set, Function.update_of_ne different]

/-- What a step does to one peer relates all peers before and after it. -/
theorem set_relates {R : Peer → Peer → Prop} (reflexive : ∀ p, R p p) {s : Stack ι} {i : ι}
    {p' : Peer} (changed : R (s.peers i) p') (j : ι) : R (s.peers j) ((s.set i p').peers j) := by
  by_cases same : j = i
  · subst same
    rw [set_self]
    exact changed
  · rw [set_of_ne s same]
    exact reflexive _

theorem Sound.step {config : MempoolConfig} {name : ι → PeerId} {s s' : Stack ι} {label : Label ι}
    (sound : s.Sound name) (h : step config name s label = some s') : s'.Sound name := by
  obtain ⟨i, p', rfl, advances, arrives⟩ := step_cases h
  have grows : ∀ j, (s.peers j).node.broadcasts <+: ((s.set i p').peers j).node.broadcasts :=
    set_relates (R := fun p p' => p.node.broadcasts <+: p'.node.broadcasts)
      (fun _ => List.prefix_rfl) advances.grows
  have publishes : ∀ j,
      (s.peers j).net.loop.published <+: ((s.set i p').peers j).net.loop.published :=
    set_relates (R := fun p p' => p.net.loop.published <+: p'.net.loop.published)
      (fun _ => List.prefix_rfl) advances.publishes
  have carries : ∀ j, (s.peers j).net.Carries (s.peers j).offered →
      ((s.set i p').peers j).net.Carries ((s.set i p').peers j).offered :=
    set_relates (R := fun p p' => p.net.Carries p.offered → p'.net.Carries p'.offered)
      (fun _ carries => carries) advances.carries
  have orders : (s.peers i).inbound.Sublist (s.peers i).arrived →
      p'.inbound.Sublist p'.arrived := by
    intro ordered
    obtain ⟨added, arrived, inbound⟩ := advances.inbound
    rw [arrived]
    exact inbound.trans (ordered.append_right added)
  have ordered : ∀ j, (s.peers j).inbound.Sublist (s.peers j).arrived →
      ((s.set i p').peers j).inbound.Sublist ((s.set i p').peers j).arrived :=
    set_relates (R := fun p p' => p.inbound.Sublist p.arrived → p'.inbound.Sublist p'.arrived)
      (fun _ ordered => ordered) orders
  refine ⟨fun j => carries j (sound.carries j), fun j => ordered j (sound.ordered j), ?_⟩
  intro j event member
  by_cases same : j = i
  · subst same
    rw [set_self] at member
    rcases arrives with unchanged | ⟨delivery, id, message, rfl, brought, arrived⟩
    · rw [unchanged] at member
      exact (sound.genuine j event member).mono grows publishes
    · rw [arrived] at member
      rcases List.mem_append.mp member with old | new
      · exact (sound.genuine _ event old).mono grows publishes
      · obtain ⟨batch, found, published, gossiped⟩ := sound.message_genuine brought id
        rw [gossiped, Option.toList_some, List.mem_singleton] at new
        have fresh : s.Genuine name delivery.target event :=
          ⟨delivery.origin, delivery.index, id, batch, (message_cases brought).1, new, found,
            published⟩
        exact fresh.mono grows publishes
  · rw [set_of_ne s same] at member
    exact (sound.genuine j event member).mono grows publishes

theorem run_sound {config : MempoolConfig} {name : ι → PeerId} {port : OutputPort}
    {capacities : Capacities} {labels : List (Label ι)} {s : Stack ι}
    (ran : (system config name).run (start port capacities) labels = some s) : s.Sound name :=
  (system config name).run_induction (fun _ _ _ sound h => sound.step h)
    (sound_start name port capacities) ran

end Stack

/-! ## Simulation -/

namespace Cluster

variable {ι : Type*}

/-- Transactions come from peers only through the gossip layer. -/
def Label.Relays : Label ι → Prop
  | .on _ label => ∀ event, label = .gossip event → (Msg.networkEvent event).submission = none
  | .deliver _ _ _ => True

variable [DecidableEq ι]

theorem run_move {config : MempoolConfig} {c : Cluster ι} {label : Label ι} {i : ι}
    {l : MalachiteMempool.Label} {next : Node} (moves : c.move label = some (i, l))
    (taken : Node.step config (c.nodes i) l = some next) :
    ∃ c', (system config).run c [label] = some c' ∧ c'.nodes = Function.update c.nodes i next := by
  refine ⟨⟨Function.update c.nodes i next, c.delivered ++ label.delivery.toList⟩, ?_, rfl⟩
  simp [Transition.System.run, system, step, moves, taken]

end Cluster

namespace Stack

variable {ι : Type*}

/-- The cluster has the mempools of the stack. -/
def Shows (name : ι → PeerId) (s : Stack ι) (c : Cluster ι) : Prop :=
  s.Sound name ∧ ∀ i, c.nodes i = (s.peers i).node

theorem submission_of_other {event : Network.Event} (other : event.isMessage = false) :
    (Msg.networkEvent event).submission = none := by
  cases event with
  | message channel peer id msg => cases other
  | listening | peerConnected | peerDisconnected => rfl

/-- The oldest message on its way to a mempool is a broadcast of another node. -/
theorem Sound.oldest_genuine {name : ι → PeerId} {s : Stack ι} (sound : s.Sound name) {i : ι}
    {event : Network.Event} {later : List Network.Event}
    (oldest : (s.peers i).net.upstream = event :: later) (isMessage : event.isMessage = true) :
    s.Genuine name i event := by
  apply sound.genuine i event
  apply (sound.ordered i).subset
  rw [Peer.inbound, Tasks.incoming, oldest, List.mem_append]
  exact .inr (List.mem_filter.mpr ⟨List.mem_cons_self, isMessage⟩)

variable [DecidableEq ι]

/-- A peer changes its node as one step of the cluster does. -/
theorem Shows.move {config : MempoolConfig} {name : ι → PeerId} {s : Stack ι} {c : Cluster ι}
    (shows' : s.Shows name c) {i : ι} {p' : Peer} (sound : (s.set i p').Sound name)
    (action : Cluster.Label ι) (relays : action.Relays) {l : MalachiteMempool.Label}
    (moves : c.move action = some (i, l))
    (taken : Node.step config (s.peers i).node l = some p'.node) :
    ∃ actions c', (Cluster.system config).run c actions = some c' ∧
      (∀ action ∈ actions, action.Relays) ∧ (s.set i p').Shows name c' := by
  rw [← shows'.2 i] at taken
  obtain ⟨c', ran, nodes⟩ := Cluster.run_move moves taken
  refine ⟨[action], c', ran, by simpa using relays, sound, ?_⟩
  intro j
  rw [nodes]
  by_cases same : j = i
  · subst same
    rw [Function.update_self, set_self]
  · rw [Function.update_of_ne same, set_of_ne s same]
    exact shows'.2 j

/-- A peer leaves its node as it is. -/
theorem Shows.stay {config : MempoolConfig} {name : ι → PeerId} {s : Stack ι} {c : Cluster ι}
    (shows' : s.Shows name c) {i : ι} {p' : Peer} (sound : (s.set i p').Sound name)
    (same : p'.node = (s.peers i).node) :
    ∃ actions c', (Cluster.system config).run c actions = some c' ∧
      (∀ action ∈ actions, action.Relays) ∧ (s.set i p').Shows name c' := by
  refine ⟨[], c, rfl, by simp, sound, ?_⟩
  intro j
  by_cases isPeer : j = i
  · subst isPeer
    rw [set_self, same]
    exact shows'.2 j
  · rw [set_of_ne s isPeer]
    exact shows'.2 j

theorem Shows.step {config : MempoolConfig} {name : ι → PeerId} {s s' : Stack ι} {c : Cluster ι}
    {label : Label ι} (shows' : s.Shows name c) (h : step config name s label = some s') :
    ∃ actions c', (Cluster.system config).run c actions = some c' ∧
      (∀ action ∈ actions, action.Relays) ∧ s'.Shows name c' := by
  have sound := shows'.1.step h
  cases label with
  | join i =>
      obtain ⟨p', joins, rfl⟩ := Option.map_eq_some_iff.mp h
      refine shows'.stay sound ?_
      rw [Peer.join] at joins
      split at joins
      · cases joins
      · obtain rfl := Option.some.inj joins
        rfl
  | node i label =>
      obtain ⟨p', acts, rfl⟩ := Option.map_eq_some_iff.mp h
      obtain ⟨node, taken, ungossiped, rfl⟩ := Peer.act_cases acts
      exact shows'.move sound (.on i label)
        (fun event isGossip => absurd isGossip (ungossiped event)) rfl taken
  | net i label =>
      obtain ⟨p', turns, rfl⟩ := Option.map_eq_some_iff.mp h
      refine shows'.stay sound ?_
      rw [Peer.turn] at turns
      split at turns
      · obtain ⟨net, _, rfl⟩ := Option.map_eq_some_iff.mp turns
        rfl
      · cases turns
  | deliver delivery id =>
      obtain ⟨message, _, h⟩ := Option.bind_eq_some_iff.mp h
      obtain ⟨p', receives, rfl⟩ := Option.map_eq_some_iff.mp h
      refine shows'.stay sound ?_
      obtain ⟨net, _, rfl⟩ := Option.map_eq_some_iff.mp receives
      rfl
  | relay i =>
      obtain ⟨p', relays, rfl⟩ := Option.map_eq_some_iff.mp h
      obtain ⟨net, _, _, outcome⟩ := Peer.relay_cases config relays
      rcases outcome with ⟨rfl, _⟩ | ⟨event, node, taken, oldest, rfl⟩
      · exact shows'.stay sound rfl
      · cases isMessage : event.isMessage with
        | false =>
            refine shows'.move sound (.on i (.gossip event)) ?_ rfl taken
            intro event' same
            obtain rfl := MalachiteMempool.Label.gossip.inj same
            exact submission_of_other isMessage
        | true =>
            -- the event is a broadcast, so the gossip layer could have delivered it
            obtain ⟨origin, index, id, batch, different, rfl, found, _⟩ :=
              shows'.1.oldest_genuine oldest isMessage
            refine shows'.move sound (.deliver ⟨origin, index, i⟩ (name origin) id)
              trivial ?_ taken
            rw [← shows'.2 origin] at found
            simp [Cluster.move, different, found]

theorem exists_cluster_run {config : MempoolConfig} {name : ι → PeerId} {port : OutputPort}
    {capacities : Capacities} {labels : List (Label ι)} {s : Stack ι}
    (ran : (system config name).run (start port capacities) labels = some s) :
    ∃ actions c, (Cluster.system config).run (Cluster.start port) actions = some c ∧
      (∀ action ∈ actions, action.Relays) ∧ ∀ i, c.nodes i = (s.peers i).node := by
  have initial : (start port capacities : Stack ι).Shows name (Cluster.start port) :=
    ⟨sound_start name port capacities, fun _ => rfl⟩
  obtain ⟨actions, c, matched, relays, shows'⟩ :=
    (system config name).run_refines (Cluster.system config)
      (fun _ _ _ _ related h => related.step h) initial ran
  exact ⟨actions, c, matched, relays, shows'.2⟩

/-- Every run of the nodes on their real network, whatever is lost, late or
    repeated in it, is a run of a cluster with the same mempools, in which peers
    bring transactions only through the abstract gossip layer. -/
theorem stack_refines_cluster (config : MempoolConfig) (name : ι → PeerId) (port : OutputPort)
    (capacities : Capacities) (labels : List (Label ι)) (s : Stack ι)
    (ran : (system config name).run (start port capacities) labels = some s) :
    ∃ actions c, (Cluster.system config).run (Cluster.start port) actions = some c ∧
      (∀ action ∈ actions, action.Relays) ∧ ∀ i, c.nodes i = (s.peers i).node :=
  exists_cluster_run ran

/-- What gossipsub got from a node is the beginning of what its mempool has
    broadcast, and all of it is there or queued while the tasks run; what the
    mempool got and will get from gossipsub are published broadcasts of other
    nodes, in the order of their arrival and none more often than it arrived. -/
theorem pipelines_in_order (config : MempoolConfig) (name : ι → PeerId) (port : OutputPort)
    (capacities : Capacities) (labels : List (Label ι)) (s : Stack ι)
    (ran : (system config name).run (start port capacities) labels = some s) (i : ι) :
    let p := s.peers i
    p.net.loop.published <+: p.node.broadcasts.map publicationOf ∧
      (p.net.loop.phase ≠ .ended → p.net.actor.handling = true →
        p.net.loop.published ++ p.net.queued ++ p.net.waiting =
          p.node.broadcasts.map publicationOf) ∧
      (p.node.heard.filter Event.isMessage ++ p.net.incoming).Sublist p.arrived ∧
      ∀ event ∈ p.arrived, s.Genuine name i event := by
  have sound := run_sound ran
  exact ⟨(sound.carries i).published, (sound.carries i).whole, sound.ordered i, sound.genuine i⟩

/-- A submission at one of two nodes travels to the pool of the other. -/
def journey : List (Label Bool) :=
  [.join false, .join true, .net false (.listen true), .net true (.listen true),
    .net false .handle, .net true .handle] ++ Node.roundTrip.map (.node false) ++
    [.net false .handle, .net false .sendBroadcast, .net false .recvCtrl,
      .deliver ⟨false, 0, true⟩ ⟨[1]⟩, .net true .sendEvent, .net true .recvEvent,
      .net true (.cast true), .net true .handle, .relay true] ++
    [MalachiteMempool.Label.handle .calm, .forward 0, .app 0 Host.checkTx, .handle .calm].map
      (.node true)

def peerNamed (i : Bool) : PeerId := ⟨[if i then 1 else 0]⟩

theorem journey_arrives :
    ((system MempoolConfig.default peerNamed).run (start OutputPort.default Capacities.default)
      journey).map (fun s => ((s.peers false).net.loop.published.length,
        (s.peers true).node.pool.state.txs.length)) = some (1, 1) := by
  decide +kernel

theorem journey_refines :
    ∃ s, (system MempoolConfig.default peerNamed).run
        (start OutputPort.default Capacities.default) journey = some s ∧
      (s.peers true).node.pool.state.txs.length = 1 ∧
      ∃ actions c, (Cluster.system MempoolConfig.default).run (Cluster.start OutputPort.default)
          actions = some c ∧
        (∀ action ∈ actions, action.Relays) ∧ ∀ i, c.nodes i = (s.peers i).node := by
  obtain ⟨s, ran, counts⟩ := Option.map_eq_some_iff.mp journey_arrives
  exact ⟨s, ran, (Prod.mk.inj counts).2, stack_refines_cluster _ peerNamed _ _ journey s ran⟩

theorem journey_in_order :
    ∃ s, (system MempoolConfig.default peerNamed).run
        (start OutputPort.default Capacities.default) journey = some s ∧
      (s.peers false).net.loop.published.length = 1 ∧
      (s.peers false).net.loop.published <+: (s.peers false).node.broadcasts.map publicationOf := by
  obtain ⟨s, ran, counts⟩ := Option.map_eq_some_iff.mp journey_arrives
  exact ⟨s, ran, (Prod.mk.inj counts).1, (pipelines_in_order _ peerNamed _ _ journey s ran false).1⟩

end Stack

end MalachiteMempool
