import MalachiteMempool.Network.Codec

/-! # The swarm loop

`run` of `libp2p-network/src/lib.rs` with its two handlers.  A handler either
answers the loop at once or ends with `tx_event.send(..).await`, whose outcome
is the answer: nothing follows the send in any branch.  So a handler is a pure
function here, and the loop has a phase in which it waits for the send.

The loop is put among peers that send it anything at any time, an owner that
sends control messages and a receiver of events that may be dropped.
-/

namespace MalachiteMempool.Network

/-- `gossipsub::TopicHash`; the topics here are hashed by the identity. -/
structure TopicHash where
  text : String
  deriving DecidableEq, Repr

namespace Channel

def all : List Channel := [.mempool]

def asStr : Channel → String
  | .mempool => "/mempool"

def topicHash (channel : Channel) : TopicHash := ⟨channel.asStr⟩

def hasTopic (topicHash : TopicHash) : Bool :=
  all.any (fun channel => channel.topicHash == topicHash)

def fromTopicHash (topic : TopicHash) : Option Channel :=
  match topic.text with
  | "/mempool" => some .mempool
  | _ => none

end Channel

def PROTOCOL : String := "/malachitebft-test-mempool/v1beta1"

namespace Identify

/-- The loop reads nothing else of it. -/
structure Info where
  protocolVersion : String
  deriving DecidableEq, Repr

inductive Event where
  | sent (peer : PeerId)
  | received (peer : PeerId) (info : Info)
  | other
  deriving DecidableEq, Repr

end Identify

namespace GossipSub

structure Message where
  source : Option PeerId
  data : Bytes
  topic : TopicHash
  deriving DecidableEq, Repr

inductive Event where
  | subscribed (peer : PeerId) (topic : TopicHash)
  | unsubscribed (peer : PeerId) (topic : TopicHash)
  | message (id : MessageId) (message : Message)
  | other
  deriving DecidableEq, Repr

end GossipSub

/-- `SwarmEvent<NetworkEvent>`. -/
inductive SwarmEvent where
  | newListenAddr (address : Multiaddr)
  | identify (event : Identify.Event)
  | gossipSub (event : GossipSub.Event)
  | ping (peer : PeerId) (result : Except String Nat)
  | other

inductive CtrlMsg where
  | broadcastMsg (channel : Channel) (data : Bytes)
  | shutdown
  deriving DecidableEq, Repr

/-- The `State` of the loop. -/
structure SwarmState where
  peers : PeerId → Option Identify.Info

namespace SwarmState

def default : SwarmState := { peers := fun _ => none }

def insertPeer (state : SwarmState) (peer : PeerId) (info : Identify.Info) : SwarmState :=
  { state with peers := fun other => if other = peer then some info else state.peers other }

end SwarmState

/-- How a handler ends: with `ControlFlow::Continue`, with `ControlFlow::Break`,
    or with a send on the event channel that decides between the two. -/
inductive Flow where
  | proceeds
  | breaks
  | sends (event : Event)

/-- What a failed or completed send of an event returns to the loop. -/
def Flow.ofSend (delivered : Bool) : Flow := if delivered then .proceeds else .breaks

def handleSwarmEvent (event : SwarmEvent) (state : SwarmState) : SwarmState × Flow :=
  match event with
  | .newListenAddr address => (state, .sends (.listening address))
  | .identify (.sent _) => (state, .proceeds)
  | .identify (.received peer info) =>
      if info.protocolVersion = PROTOCOL then (state.insertPeer peer info, .proceeds)
      else (state, .proceeds)
  | .identify .other => (state, .proceeds)
  -- known and unknown topics differ only in what is logged
  | .gossipSub (.subscribed _ _) => (state, .proceeds)
  | .gossipSub (.unsubscribed peer topic) =>
      if Channel.hasTopic topic then (state, .sends (.peerDisconnected peer))
      else (state, .proceeds)
  | .gossipSub (.message id message) =>
      match message.source with
      | none => (state, .proceeds)
      | some peer =>
          match Channel.fromTopicHash message.topic with
          | none => (state, .proceeds)
          | some channel =>
              match NetworkMsg.fromNetworkBytes message.data with
              | .error _ => (state, .proceeds)
              | .ok networkMsg => (state, .sends (.message channel peer id networkMsg))
  | .gossipSub .other => (state, .proceeds)
  | .ping _ _ => (state, .proceeds)
  | .other => (state, .proceeds)

/-- What is published, and how the loop goes on; a failed publication is only
    logged. -/
def handleCtrlMsg : CtrlMsg → Option (TopicHash × Bytes) × Flow
  | .broadcastMsg channel data => (some (channel.topicHash, data), .proceeds)
  | .shutdown => (none, .breaks)

inductive SwarmPhase where
  /-- Before the loop: `listen_on` and the persistent peers. -/
  | starting
  | selecting
  | sending (event : Event)
  | ended
  deriving DecidableEq, Repr

def Flow.phase : Flow → SwarmPhase
  | .proceeds => .selecting
  | .breaks => .ended
  | .sends event => .sending event

structure SwarmLoop where
  state : SwarmState
  phase : SwarmPhase
  /-- What was handed to gossipsub for publication. -/
  published : List (TopicHash × Bytes)
  /-- What the event channel has taken. -/
  forwarded : List Event

namespace SwarmLoop

def start : SwarmLoop :=
  { state := .default, phase := .starting, published := [], forwarded := [] }

/-- Right before the first turn of the loop. -/
def entered : SwarmLoop := { start with phase := .selecting }

/-- `run` returns when it cannot listen. -/
def listen (loop : SwarmLoop) (listening : Bool) : Option SwarmLoop :=
  match loop.phase with
  | .starting => some { loop with phase := if listening then .selecting else .ended }
  | _ => none

def onSwarmEvent (loop : SwarmLoop) (event : SwarmEvent) : Option SwarmLoop :=
  match loop.phase with
  | .selecting =>
      let (state, flow) := handleSwarmEvent event loop.state
      some { loop with state := state, phase := flow.phase }
  | _ => none

def onCtrlMsg (loop : SwarmLoop) (msg : CtrlMsg) : Option SwarmLoop :=
  match loop.phase with
  | .selecting =>
      let (publication, flow) := handleCtrlMsg msg
      some { loop with published := loop.published ++ publication.toList, phase := flow.phase }
  | _ => none

/-- The send is over: the event was delivered, or there is no receiver. -/
def onSend (loop : SwarmLoop) (delivered : Bool) : Option SwarmLoop :=
  match loop.phase with
  | .sending event =>
      some { loop with
        forwarded := if delivered then loop.forwarded ++ [event] else loop.forwarded
        phase := (Flow.ofSend delivered).phase }
  | _ => none

end SwarmLoop

/-! ## Among peers -/

structure Exposed where
  loop : SwarmLoop
  receiverOpen : Bool

namespace Exposed

inductive Label where
  | event (event : SwarmEvent)
  | ctrl (msg : CtrlMsg)
  /-- The pending send comes to its end; while the channel is full it does not. -/
  | send
  | dropReceiver

def entered : Exposed := { loop := .entered, receiverOpen := true }

def step (s : Exposed) : Label → Option Exposed
  | .event event => (s.loop.onSwarmEvent event).map (fun loop => { s with loop := loop })
  | .ctrl msg => (s.loop.onCtrlMsg msg).map (fun loop => { s with loop := loop })
  | .send => (s.loop.onSend s.receiverOpen).map (fun loop => { s with loop := loop })
  | .dropReceiver => some { s with receiverOpen := false }

def system : Transition.System Exposed Label where
  step := step

end Exposed

/-! ## What the handlers can do -/

theorem Channel.fromTopicHash_eq (topic : TopicHash) :
    fromTopicHash topic = if topic = Channel.mempool.topicHash then some .mempool else none := by
  obtain ⟨text⟩ := topic
  by_cases isMempool : text = "/mempool"
  · subst isMempool
    rfl
  · simp [fromTopicHash, topicHash, asStr, isMempool]

def Event.isMessage : Event → Bool
  | .message _ _ _ _ => true
  | _ => false

/-- The event that a gossip message should be forwarded as: it has a source, it
    is on the mempool's topic and its data can be read. -/
def SwarmEvent.gossiped : SwarmEvent → Option Event
  | .gossipSub (.message id message) =>
      match message.source, NetworkMsg.fromNetworkBytes message.data with
      | some peer, .ok networkMsg =>
          if message.topic = Channel.mempool.topicHash then
            some (.message .mempool peer id networkMsg)
          else none
      | _, _ => none
  | _ => none

/-- The event whose send is under way. -/
def SwarmPhase.pending : SwarmPhase → List Event
  | .sending event => [event]
  | _ => []

/-- Nothing a peer does makes its handler break. -/
theorem handleSwarmEvent_unbroken (event : SwarmEvent) (state : SwarmState) :
    (handleSwarmEvent event state).2.phase ≠ .ended := by
  fun_cases handleSwarmEvent event state
  all_goals simp [Flow.phase]

theorem handleSwarmEvent_message (id : MessageId) (message : GossipSub.Message)
    (state : SwarmState) :
    (handleSwarmEvent (.gossipSub (.message id message)) state).2.phase.pending =
      (SwarmEvent.gossiped (.gossipSub (.message id message))).toList := by
  simp only [handleSwarmEvent, SwarmEvent.gossiped, Channel.fromTopicHash_eq]
  cases message.source with
  | none => rfl
  | some peer =>
      by_cases onTopic : message.topic = Channel.mempool.topicHash
      · simp only [if_pos onTopic]
        cases NetworkMsg.fromNetworkBytes message.data with
        | error e => rfl
        | ok networkMsg => rfl
      · simp only [if_neg onTopic]
        cases NetworkMsg.fromNetworkBytes message.data with
        | error e => rfl
        | ok networkMsg => rfl

theorem SwarmEvent.gossiped_filter (event : SwarmEvent) :
    event.gossiped.toList.filter Event.isMessage = event.gossiped.toList := by
  fun_cases SwarmEvent.gossiped event
  all_goals simp [Event.isMessage]

/-- Of all events, a handler forwards a message only for an acceptable one. -/
theorem handleSwarmEvent_messages (event : SwarmEvent) (state : SwarmState) :
    (handleSwarmEvent event state).2.phase.pending.filter Event.isMessage =
      event.gossiped.toList := by
  cases event with
  | newListenAddr address => rfl
  | identify event =>
      cases event with
      | sent peer => rfl
      | received peer info =>
          rw [handleSwarmEvent]
          split <;> rfl
      | other => rfl
  | gossipSub event =>
      cases event with
      | subscribed peer topic => rfl
      | unsubscribed peer topic =>
          rw [handleSwarmEvent]
          split <;> rfl
      | message id message =>
          rw [handleSwarmEvent_message]
          exact SwarmEvent.gossiped_filter _
      | other => rfl
  | ping peer result => rfl
  | other => rfl

namespace SwarmLoop

/-- The messages that were sent or are being sent. -/
def messages (loop : SwarmLoop) : List Event :=
  (loop.forwarded ++ loop.phase.pending).filter Event.isMessage

theorem onSwarmEvent_eq_some {loop next : SwarmLoop} {event : SwarmEvent} :
    loop.onSwarmEvent event = some next ↔ loop.phase = .selecting ∧
      next = { loop with
        state := (handleSwarmEvent event loop.state).1
        phase := (handleSwarmEvent event loop.state).2.phase } := by
  rw [onSwarmEvent]
  cases loop.phase <;> simp [eq_comm]

theorem onCtrlMsg_eq_some {loop next : SwarmLoop} {msg : CtrlMsg} :
    loop.onCtrlMsg msg = some next ↔ loop.phase = .selecting ∧
      next = { loop with
        published := loop.published ++ (handleCtrlMsg msg).1.toList
        phase := (handleCtrlMsg msg).2.phase } := by
  rw [onCtrlMsg]
  cases loop.phase <;> simp [eq_comm]

theorem onSend_eq_some {loop next : SwarmLoop} {delivered : Bool} :
    loop.onSend delivered = some next ↔ ∃ event, loop.phase = .sending event ∧
      next = { loop with
        forwarded := if delivered then loop.forwarded ++ [event] else loop.forwarded
        phase := (Flow.ofSend delivered).phase } := by
  rw [onSend]
  cases loop.phase <;> simp [eq_comm]

theorem onSwarmEvent_messages {loop next : SwarmLoop} {event : SwarmEvent}
    (handled : loop.onSwarmEvent event = some next) :
    next.messages = loop.messages ++ event.gossiped.toList := by
  obtain ⟨selecting, rfl⟩ := onSwarmEvent_eq_some.mp handled
  have quiet : loop.phase.pending = [] := by
    rw [selecting]
    rfl
  simp only [messages, List.filter_append, handleSwarmEvent_messages, quiet, List.append_nil]

/-- A control message ends the loop or leaves it selecting, and forwards nothing. -/
theorem onCtrlMsg_messages {loop next : SwarmLoop} {msg : CtrlMsg}
    (handled : loop.onCtrlMsg msg = some next) : next.messages = loop.messages := by
  obtain ⟨selecting, rfl⟩ := onCtrlMsg_eq_some.mp handled
  cases msg with
  | broadcastMsg channel data => simp [messages, handleCtrlMsg, selecting, Flow.phase]
  | shutdown => simp [messages, handleCtrlMsg, selecting, Flow.phase, SwarmPhase.pending]

theorem onSend_messages {loop next : SwarmLoop} (handled : loop.onSend true = some next) :
    next.messages = loop.messages := by
  obtain ⟨event, sending, rfl⟩ := onSend_eq_some.mp handled
  simp [messages, sending, Flow.ofSend, Flow.phase, SwarmPhase.pending]

end SwarmLoop

namespace Exposed

/-- The event a gossip message of this label stands for. -/
def Label.gossiped : Label → Option Event
  | .event happened => happened.gossiped
  | .ctrl _ => none
  | .send => none
  | .dropReceiver => none

/-- The loop ends at a control message `Shutdown` or at a send without receiver. -/
theorem step_ended {s next : Exposed} {a : Label} (taken : system.step s a = some next)
    (ended : next.loop.phase = .ended) :
    s.loop.phase = .ended ∨ a = .ctrl .shutdown ∨ a = .send ∧ s.receiverOpen = false := by
  cases a with
  | event event =>
      obtain ⟨loop, handled, rfl⟩ := Option.map_eq_some_iff.mp taken
      obtain ⟨_, rfl⟩ := SwarmLoop.onSwarmEvent_eq_some.mp handled
      exact absurd ended (handleSwarmEvent_unbroken event s.loop.state)
  | ctrl msg =>
      obtain ⟨loop, handled, rfl⟩ := Option.map_eq_some_iff.mp taken
      obtain ⟨_, rfl⟩ := SwarmLoop.onCtrlMsg_eq_some.mp handled
      cases msg with
      | broadcastMsg channel data => cases ended
      | shutdown => exact .inr (.inl rfl)
  | send =>
      obtain ⟨loop, handled, rfl⟩ := Option.map_eq_some_iff.mp taken
      obtain ⟨event, _, rfl⟩ := SwarmLoop.onSend_eq_some.mp handled
      cases isOpen : s.receiverOpen with
      | false => exact .inr (.inr ⟨rfl, rfl⟩)
      | true =>
          rw [isOpen] at ended
          cases ended
  | dropReceiver =>
      obtain rfl := Option.some.inj taken
      exact .inl ended

/-- While the loop runs, every step forwards what its label stands for. -/
theorem step_messages {s next : Exposed} {a : Label} (taken : system.step s a = some next)
    (running : next.loop.phase ≠ .ended) :
    s.loop.phase ≠ .ended ∧ next.loop.messages = s.loop.messages ++ a.gossiped.toList := by
  cases a with
  | event event =>
      obtain ⟨loop, handled, rfl⟩ := Option.map_eq_some_iff.mp taken
      obtain ⟨selecting, _⟩ := SwarmLoop.onSwarmEvent_eq_some.mp handled
      exact ⟨by simp [selecting], SwarmLoop.onSwarmEvent_messages handled⟩
  | ctrl msg =>
      obtain ⟨loop, handled, rfl⟩ := Option.map_eq_some_iff.mp taken
      obtain ⟨selecting, _⟩ := SwarmLoop.onCtrlMsg_eq_some.mp handled
      refine ⟨by simp [selecting], ?_⟩
      rw [Label.gossiped, Option.toList_none, List.append_nil]
      exact SwarmLoop.onCtrlMsg_messages handled
  | send =>
      obtain ⟨loop, handled, rfl⟩ := Option.map_eq_some_iff.mp taken
      obtain ⟨event, sending, rfl⟩ := SwarmLoop.onSend_eq_some.mp handled
      refine ⟨by simp [sending], ?_⟩
      rw [Label.gossiped, Option.toList_none, List.append_nil]
      cases isOpen : s.receiverOpen with
      | false =>
          rw [isOpen] at running
          exact absurd rfl running
      | true =>
          rw [isOpen] at handled
          exact SwarmLoop.onSend_messages handled
  | dropReceiver =>
      obtain rfl := Option.some.inj taken
      refine ⟨running, ?_⟩
      rw [Label.gossiped, Option.toList_none, List.append_nil]

theorem run_messages {s final : Exposed} {labels : List Label}
    (ran : system.run s labels = some final) (running : final.loop.phase ≠ .ended) :
    s.loop.phase ≠ .ended ∧
      final.loop.messages = s.loop.messages ++ labels.filterMap Label.gossiped :=
  system.run_collects (fun _ _ _ taken running => step_messages taken running) ran running

/-- What is published stays so. -/
theorem step_published {s next : Exposed} {a : Label} (taken : system.step s a = some next) :
    s.loop.published <+: next.loop.published := by
  cases a with
  | event event =>
      obtain ⟨loop, handled, rfl⟩ := Option.map_eq_some_iff.mp taken
      obtain ⟨_, rfl⟩ := SwarmLoop.onSwarmEvent_eq_some.mp handled
      exact List.prefix_rfl
  | ctrl msg =>
      obtain ⟨loop, handled, rfl⟩ := Option.map_eq_some_iff.mp taken
      obtain ⟨_, rfl⟩ := SwarmLoop.onCtrlMsg_eq_some.mp handled
      exact List.prefix_append _ _
  | send =>
      obtain ⟨loop, handled, rfl⟩ := Option.map_eq_some_iff.mp taken
      obtain ⟨_, _, rfl⟩ := SwarmLoop.onSend_eq_some.mp handled
      exact List.prefix_rfl
  | dropReceiver =>
      obtain rfl := Option.some.inj taken
      exact List.prefix_rfl

/-- A dropped receiver does not come back. -/
theorem step_dropped {s next : Exposed} {a : Label} (taken : system.step s a = some next)
    (dropped : s.receiverOpen = false) : next.receiverOpen = false := by
  cases a with
  | event _ | ctrl _ | send =>
      obtain ⟨loop, _, rfl⟩ := Option.map_eq_some_iff.mp taken
      exact dropped
  | dropReceiver =>
      obtain rfl := Option.some.inj taken
      rfl

theorem run_ended {s final : Exposed} {labels : List Label}
    (ran : system.run s labels = some final) (ended : final.loop.phase = .ended) :
    s.loop.phase = .ended ∨ .ctrl .shutdown ∈ labels ∨ final.receiverOpen = false := by
  induction labels generalizing s with
  | nil =>
      obtain rfl := Option.some.inj ran
      exact .inl ended
  | cons a rest ih =>
      obtain ⟨next, taken, ran⟩ := system.run_cons_eq_some.mp ran
      rcases ih ran with nextEnded | shutdown | dropped
      · rcases step_ended taken nextEnded with already | shutdown | ⟨_, dropped⟩
        · exact .inl already
        · exact .inr (.inl (by simp [shutdown]))
        · have nextDropped := step_dropped taken dropped
          have finalDropped : final.receiverOpen = false :=
            system.run_induction (fun _ _ _ dropped taken => step_dropped taken dropped)
              nextDropped ran
          exact .inr (.inr finalDropped)
      · exact .inr (.inl (List.mem_cons_of_mem a shutdown))
      · exact .inr (.inr dropped)

/-- Whatever peers send, only `Shutdown` and the loss of the receiver end the
    loop, and what it forwards of their messages is exactly the acceptable ones. -/
theorem swarm_loop_forwards_exactly (labels : List Label) (final : Exposed)
    (ran : system.run entered labels = some final) :
    (final.loop.phase = .ended → .ctrl .shutdown ∈ labels ∨ final.receiverOpen = false) ∧
    (∀ a next, system.step final a = some next → final.loop.phase ≠ .ended →
      next.loop.phase = .ended → a = .ctrl .shutdown ∨ final.receiverOpen = false) ∧
    (final.loop.phase = .selecting → ∀ event, ∃ next,
      system.step final (.event event) = some next ∧ next.loop.phase ≠ .ended) ∧
    (final.loop.phase ≠ .ended →
      (final.loop.forwarded ++ final.loop.phase.pending).filter Event.isMessage =
        labels.filterMap Label.gossiped) := by
  refine ⟨?_, ?_, ?_, ?_⟩
  · intro ended
    rcases run_ended ran ended with already | cause
    · cases already
    · exact cause
  · intro a next taken running ended
    rcases step_ended taken ended with already | shutdown | ⟨_, dropped⟩
    · exact absurd already running
    · exact .inl shutdown
    · exact .inr dropped
  · intro selecting event
    have handled : final.loop.onSwarmEvent event = some _ :=
      SwarmLoop.onSwarmEvent_eq_some.mpr ⟨selecting, rfl⟩
    exact ⟨_, Option.map_eq_some_iff.mpr ⟨_, handled, rfl⟩,
      handleSwarmEvent_unbroken event final.loop.state⟩
  · intro running
    obtain ⟨_, forwards⟩ := run_messages ran running
    exact forwards

/-- A batch from a peer, between a message without source and one on another topic. -/
theorem swarm_loop_forwards_batch :
    ∃ final, system.run entered
        [.event (.gossipSub (.message ⟨[0]⟩ ⟨none, [10, 0], ⟨"/mempool"⟩⟩)),
          .event (.gossipSub (.message ⟨[1]⟩ ⟨some ⟨[7]⟩, [10, 0], ⟨"/mempool"⟩⟩)), .send,
          .event (.gossipSub (.message ⟨[2]⟩ ⟨some ⟨[7]⟩, [10, 0], ⟨"/blocks"⟩⟩))] = some final ∧
      (final.loop.forwarded ++ final.loop.phase.pending).filter Event.isMessage =
        [.message .mempool ⟨[7]⟩ ⟨[1]⟩ (.transactionBatch ⟨{ typeUrl := "", value := [] }⟩)] := by
  refine ⟨_, rfl, ?_⟩
  obtain ⟨_, _, _, forwards⟩ := swarm_loop_forwards_exactly
    [.event (.gossipSub (.message ⟨[0]⟩ ⟨none, [10, 0], ⟨"/mempool"⟩⟩)),
      .event (.gossipSub (.message ⟨[1]⟩ ⟨some ⟨[7]⟩, [10, 0], ⟨"/mempool"⟩⟩)), .send,
      .event (.gossipSub (.message ⟨[2]⟩ ⟨some ⟨[7]⟩, [10, 0], ⟨"/blocks"⟩⟩))] _ rfl
  exact forwards (by decide)

end Exposed

end MalachiteMempool.Network
