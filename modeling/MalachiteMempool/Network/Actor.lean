import MalachiteMempool.Network.Swarm

/-! # The network actor

`MempoolNetwork` of `libp2p-network/src/network.rs`.  It passes batches on to
the swarm loop, publishes the events of the loop on its output port and keeps a
set of peers.  The only thing `handle` waits for is the control channel, at the
end of a broadcast.
-/

namespace MalachiteMempool.Network

inductive Msg where
  | subscribe
  | broadcast (batch : MempoolTransactionBatch)
  | newEvent (event : Event)

/-- `State`; the handles of the running state belong to the system around it. -/
inductive ActorState where
  | stopped
  | running (peers : Finset PeerId) (outputPort : Broadcast.Channel Event)

/-- Nothing is sent while nobody is subscribed. -/
def publish (outputPort : Broadcast.Channel Event) (event : Event) : Broadcast.Channel Event :=
  if 0 < outputPort.receivers.length then outputPort.send event else outputPort

namespace ActorState

/-- What `pre_start` returns. -/
def initial : ActorState := .running ∅ { capacity := some (ringSize 10) }

end ActorState

def updatePeers (peers : Finset PeerId) : Event → Finset PeerId
  | .peerConnected peer => insert peer peers
  | .peerDisconnected peer => peers.erase peer
  | _ => peers

/-- `handle`: the state it leaves, and the control message it then sends.  The
    failure of that send is its only error. -/
def handle (msg : Msg) (state : ActorState) : ActorState × Option CtrlMsg :=
  match state with
  | .stopped => (.stopped, none)
  | .running peers outputPort =>
      match msg with
      | .subscribe => (.running peers outputPort.subscribe, none)
      | .broadcast batch =>
          match NetworkMsg.toNetworkBytes (.transactionBatch batch) with
          | .ok bytes => (state, some (.broadcastMsg .mempool bytes))
          | .error _ => (state, none)
      | .newEvent event => (.running (updatePeers peers event) (publish outputPort event), none)

/-! ## The peers it knows of -/

/-- What the loop sends for these swarm events when every send is delivered. -/
def emitted : SwarmState → List SwarmEvent → List Event
  | _, [] => []
  | state, event :: rest =>
      (handleSwarmEvent event state).2.phase.pending ++
        emitted (handleSwarmEvent event state).1 rest

def handleAll (msgs : List Msg) (state : ActorState) : ActorState :=
  msgs.foldl (fun state msg => (handle msg state).1) state

def Msg.event : Msg → Option Event
  | .newEvent event => some event
  | _ => none

/-- What a swarm event says about a peer's subscription to the mempool's topic. -/
def SwarmEvent.subscription (peer : PeerId) : SwarmEvent → Option Bool
  | .gossipSub (.subscribed who topic) =>
      if who = peer ∧ topic = Channel.mempool.topicHash then some true else none
  | .gossipSub (.unsubscribed who topic) =>
      if who = peer ∧ topic = Channel.mempool.topicHash then some false else none
  | _ => none

/-- The peer's latest subscription event was `Subscribed`. -/
def Subscribed (events : List SwarmEvent) (peer : PeerId) : Prop :=
  (events.filterMap (SwarmEvent.subscription peer)).getLast? = some true

/-- Once the events of the loop are handled, among any other messages, the
    actor's set holds the peers that are subscribed. -/
def PeersAccurate (events : List SwarmEvent) : Prop :=
  ∀ msgs : List Msg, msgs.filterMap Msg.event = emitted .default events →
    ∃ peers outputPort, handleAll msgs .initial = .running peers outputPort ∧
      ∀ peer, peer ∈ peers ↔ Subscribed events peer

/-- Subscriptions are only logged, so no event ever connects a peer. -/
theorem handleSwarmEvent_connects_nobody (event : SwarmEvent) (state : SwarmState) (peer : PeerId) :
    .peerConnected peer ∉ (handleSwarmEvent event state).2.phase.pending := by
  fun_cases handleSwarmEvent event state
  all_goals simp [Flow.phase, SwarmPhase.pending]

theorem emitted_connects_nobody (events : List SwarmEvent) (state : SwarmState) (peer : PeerId) :
    .peerConnected peer ∉ emitted state events := by
  induction events generalizing state with
  | nil => exact List.not_mem_nil
  | cons event rest ih =>
      rw [emitted, List.mem_append]
      rintro (now | later)
      · exact handleSwarmEvent_connects_nobody event state peer now
      · exact ih _ later

theorem updatePeers_empty {event : Event} (connects : ∀ peer, event ≠ .peerConnected peer) :
    updatePeers ∅ event = ∅ := by
  cases event with
  | peerConnected peer => exact absurd rfl (connects peer)
  | peerDisconnected peer => exact Finset.erase_empty peer
  | listening _ | message _ _ _ _ => rfl

theorem handle_peers_empty {msg : Msg} {outputPort : Broadcast.Channel Event}
    (connects : ∀ peer, msg.event ≠ some (.peerConnected peer)) :
    ∃ next, (handle msg (.running ∅ outputPort)).1 = .running ∅ next := by
  cases msg with
  | subscribe => exact ⟨_, rfl⟩
  | broadcast batch => exact ⟨_, rfl⟩
  | newEvent event =>
      refine ⟨publish outputPort event, ?_⟩
      rw [handle, updatePeers_empty]
      intro peer isConnected
      exact connects peer (congrArg some isConnected)

/-- Without connections the set stays empty. -/
theorem handleAll_peers_empty {msgs : List Msg} {outputPort : Broadcast.Channel Event}
    (connects : ∀ peer, .peerConnected peer ∉ msgs.filterMap Msg.event) :
    ∃ next, handleAll msgs (.running ∅ outputPort) = .running ∅ next := by
  induction msgs generalizing outputPort with
  | nil => exact ⟨_, rfl⟩
  | cons msg rest ih =>
      have now : ∀ peer, msg.event ≠ some (.peerConnected peer) := by
        intro peer isConnected
        exact connects peer (List.mem_filterMap.mpr ⟨msg, List.mem_cons_self, isConnected⟩)
      have later : ∀ peer, .peerConnected peer ∉ rest.filterMap Msg.event := by
        intro peer among
        obtain ⟨other, member, isConnected⟩ := List.mem_filterMap.mp among
        exact connects peer
          (List.mem_filterMap.mpr ⟨other, List.mem_cons_of_mem msg member, isConnected⟩)
      obtain ⟨port, handled⟩ : ∃ port, (handle msg (.running ∅ outputPort)).1 = .running ∅ port :=
        handle_peers_empty now
      rw [handleAll, List.foldl_cons, handled]
      exact ih later

/-- So the set is accurate exactly when it should be empty. -/
theorem peersAccurate_iff_nobody (events : List SwarmEvent) :
    PeersAccurate events ↔ ∀ peer, ¬ Subscribed events peer := by
  have stays : ∀ msgs : List Msg, msgs.filterMap Msg.event = emitted .default events →
      ∃ port, handleAll msgs .initial = .running ∅ port := by
    intro msgs delivered
    apply handleAll_peers_empty
    intro peer
    rw [delivered]
    exact emitted_connects_nobody events .default peer
  constructor
  · intro accurate peer subscribed
    have delivered : ((emitted .default events).map Msg.newEvent).filterMap Msg.event =
        emitted .default events := by
      rw [List.filterMap_map]
      exact List.filterMap_some
    obtain ⟨port, empty⟩ := stays _ delivered
    obtain ⟨peers, _, handled, exactly⟩ := accurate _ delivered
    rw [empty] at handled
    obtain ⟨rfl, _⟩ := ActorState.running.inj handled
    exact Finset.notMem_empty peer ((exactly peer).mpr subscribed)
  · intro nobody msgs delivered
    obtain ⟨port, empty⟩ := stays msgs delivered
    refine ⟨∅, port, empty, ?_⟩
    intro peer
    exact ⟨fun member => absurd member (Finset.notMem_empty peer),
      fun subscribed => absurd subscribed (nobody peer)⟩

namespace SwarmEvent

/-- A peer subscribes to the mempool's topic. -/
abbrev subscribes (peer : PeerId) : SwarmEvent :=
  .gossipSub (.subscribed peer Channel.mempool.topicHash)

abbrev unsubscribes (peer : PeerId) : SwarmEvent :=
  .gossipSub (.unsubscribed peer Channel.mempool.topicHash)

theorem subscription_eq_true {event : SwarmEvent} {peer : PeerId} :
    event.subscription peer = some true ↔ event = subscribes peer := by
  fun_cases SwarmEvent.subscription peer event
  all_goals simp_all [subscribes]

theorem subscription_eq_false {event : SwarmEvent} {peer : PeerId} :
    event.subscription peer = some false ↔ event = unsubscribes peer := by
  fun_cases SwarmEvent.subscription peer event
  all_goals simp_all [unsubscribes]

end SwarmEvent

/-- The first of some events decides only if the peer does not unsubscribe later. -/
theorem subscribed_cons {event : SwarmEvent} {rest : List SwarmEvent} {peer : PeerId} :
    Subscribed (event :: rest) peer ↔ Subscribed rest peer ∨
      event = .subscribes peer ∧ .unsubscribes peer ∉ rest := by
  have unsubscribed : .unsubscribes peer ∈ rest ↔
      false ∈ rest.filterMap (SwarmEvent.subscription peer) := by
    simp [List.mem_filterMap, SwarmEvent.subscription_eq_false]
  rw [Subscribed, Subscribed, unsubscribed, ← SwarmEvent.subscription_eq_true]
  generalize laterEvents : rest.filterMap (SwarmEvent.subscription peer) = later
  cases said : event.subscription peer with
  | none =>
      rw [List.filterMap_cons_none said, laterEvents]
      simp
  | some first =>
      rw [List.filterMap_cons_some said, laterEvents, List.getLast?_cons]
      cases last : later.getLast? with
      | none =>
          rw [List.getLast?_eq_none_iff.mp last]
          simp
      | some final =>
          have among := List.mem_of_getLast? last
          cases final with
          | true => simp
          | false => simp [among]

theorem subscribed_iff_split {events : List SwarmEvent} {peer : PeerId} :
    Subscribed events peer ↔ ∃ before after,
      events = before ++ .subscribes peer :: after ∧ .unsubscribes peer ∉ after := by
  induction events with
  | nil => simp [Subscribed]
  | cons event rest ih =>
      rw [subscribed_cons, ih]
      constructor
      · rintro (⟨before, after, rfl, unfollowed⟩ | ⟨rfl, unfollowed⟩)
        · exact ⟨event :: before, after, rfl, unfollowed⟩
        · exact ⟨[], rest, rfl, unfollowed⟩
      · rintro ⟨before, after, split, unfollowed⟩
        cases before with
        | nil =>
            obtain ⟨rfl, rfl⟩ := List.cons.inj split
            exact .inr ⟨rfl, unfollowed⟩
        | cons first before =>
            obtain ⟨rfl, rfl⟩ := List.cons.inj split
            exact .inl ⟨before, after, rfl, unfollowed⟩

/-- The set is right exactly when everybody who subscribed has left again, and
    it is right all the time exactly when nobody subscribes. -/
theorem peers_accurate_iff_all_left (events : List SwarmEvent) :
    (PeersAccurate events ↔ ∀ before after peer, events = before ++ .subscribes peer :: after →
      .unsubscribes peer ∈ after) ∧
    ((∀ front, front <+: events → PeersAccurate front) ↔
      ∀ peer, .subscribes peer ∉ events) := by
  have exactly : ∀ events, PeersAccurate events ↔
      ∀ before after peer, events = before ++ .subscribes peer :: after →
        .unsubscribes peer ∈ after := by
    intro events
    rw [peersAccurate_iff_nobody]
    constructor
    · intro nobody before after peer split
      by_contra unfollowed
      exact nobody peer (subscribed_iff_split.mpr ⟨before, after, split, unfollowed⟩)
    · intro allLeft peer subscribed
      obtain ⟨before, after, split, unfollowed⟩ := subscribed_iff_split.mp subscribed
      exact unfollowed (allLeft before after peer split)
  refine ⟨exactly events, ?_⟩
  constructor
  · intro throughout peer among
    obtain ⟨before, after, rfl⟩ := List.append_of_mem among
    -- right after the subscription nobody has left yet
    have front : before ++ [.subscribes peer] <+: before ++ .subscribes peer :: after :=
      ⟨after, by simp⟩
    have left := (exactly _).mp (throughout _ front) before [] peer rfl
    exact absurd left List.not_mem_nil
  · intro nobody front shorter
    apply (exactly front).mpr
    intro before after peer split
    have among : .subscribes peer ∈ front := by simp [split]
    exact absurd (shorter.subset among) (nobody peer)

/-- One peer subscribes, and the set stays empty. -/
theorem subscribed_peer_unknown :
    ¬ PeersAccurate [.gossipSub (.subscribed ⟨[7]⟩ ⟨"/mempool"⟩)] := by
  intro accurate
  exact (peersAccurate_iff_nobody _).mp accurate ⟨[7]⟩ rfl

end MalachiteMempool.Network
