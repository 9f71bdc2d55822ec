import MalachiteMempool.Network.System

/-! # The two pipelines through the network actor

A batch goes from the actor's mailbox through the control channel to gossipsub,
a gossip message from the swarm loop through the event channel and `recv_task`
to the mailbox and on to the output port.  Each stage is a queue, so that the
stages put one after the other are the pipeline's content in order.

On the way out nothing overtakes and nothing is left out: what gossipsub got so
far is always the beginning of what was asked for.  On the way in messages may
be lost, in a full ring of the output port or when a task ends, but none is
doubled, reordered or made up.
-/

namespace MalachiteMempool.Network

open Wire

/-- The bytes of a batch; encoding one never fails. -/
def wireBytes (batch : MempoolTransactionBatch) : Bytes :=
  encodeLen 1 batch.transactionBatch.encode

theorem toNetworkBytes_eq (batch : MempoolTransactionBatch) :
    NetworkMsg.toNetworkBytes (.transactionBatch batch) = .ok (wireBytes batch) := rfl

/-- What publishing a batch hands to gossipsub. -/
def publicationOf (batch : MempoolTransactionBatch) : TopicHash × Bytes :=
  (Channel.mempool.topicHash, wireBytes batch)

def Msg.publication : Msg → Option (TopicHash × Bytes)
  | .broadcast batch => some (publicationOf batch)
  | _ => none

def CtrlMsg.publication (msg : CtrlMsg) : Option (TopicHash × Bytes) := (handleCtrlMsg msg).1

namespace ActorPhase

def publication : ActorPhase → Option (TopicHash × Bytes)
  | broadcasting msg => msg.publication
  | _ => none

/-- The actor still takes messages from its mailbox. -/
def handling : ActorPhase → Bool
  | idle => true
  | broadcasting _ => true
  | _ => false

end ActorPhase

/-- The message of the network actor's handler, and what it has to publish. -/
theorem handle_publication (msg : Msg) {peers : Finset PeerId}
    {outputPort : Broadcast.Channel Event} :
    (ActorPhase.afterHandle (handle msg (.running peers outputPort)).2).publication =
      msg.publication := by
  cases msg <;> rfl

theorem handle_running {msg : Msg} {state : ActorState} (running : state ≠ .stopped) :
    (handle msg state).1 ≠ .stopped := by
  cases state with
  | stopped => exact absurd rfl running
  | running peers outputPort => cases msg <;> simp [handle, toNetworkBytes_eq]

namespace Tasks

/-! ## The way out -/

/-- On the way to the swarm loop, oldest first. -/
def queued (t : Tasks) : List (TopicHash × Bytes) :=
  t.ctrl.queue.filterMap CtrlMsg.publication ++ t.actor.publication.toList

def waiting (t : Tasks) : List (TopicHash × Bytes) := t.mailbox.filterMap Msg.publication

/-- Everything offered so far is published, under way or dropped with the task
    that had it, in the order of the offers. -/
structure Carries (t : Tasks) (offered : List (TopicHash × Bytes)) : Prop where
  published : t.loop.published <+: offered
  underway : t.loop.phase ≠ .ended → t.loop.published ++ t.queued <+: offered
  whole : t.loop.phase ≠ .ended → t.actor.handling = true →
    t.loop.published ++ t.queued ++ t.waiting = offered
  running : t.actor.handling = true → t.state ≠ .stopped

theorem carries_start (capacities : Capacities) : (start capacities).Carries [] where
  published := List.nil_prefix
  underway := fun _ => List.nil_prefix
  whole := fun _ _ => rfl
  running := by simp [start, ActorState.initial]

variable {t next : Tasks} {offered : List (TopicHash × Bytes)}

/-- A step that moves nothing on the way out. -/
theorem Carries.idle (carries : t.Carries offered)
    (published : next.loop.published = t.loop.published)
    (ended : next.loop.phase ≠ .ended → t.loop.phase ≠ .ended)
    (queued : next.loop.phase ≠ .ended → next.queued = t.queued)
    (handling : next.actor.handling = true →
      t.actor.handling = true ∧ next.waiting = t.waiting ∧ next.state = t.state) :
    next.Carries offered where
  published := by
    rw [published]
    exact carries.published
  underway := by
    intro unended
    rw [published, queued unended]
    exact carries.underway (ended unended)
  whole := by
    intro unended isHandling
    obtain ⟨wasHandling, waiting, _⟩ := handling isHandling
    rw [published, queued unended, waiting]
    exact carries.whole (ended unended) wasHandling
  running := by
    intro isHandling
    obtain ⟨wasHandling, _, state⟩ := handling isHandling
    rw [state]
    exact carries.running wasHandling

/-- A step beside the way out. -/
theorem Carries.aside (carries : t.Carries offered) (loop : next.loop = t.loop)
    (ctrl : next.ctrl = t.ctrl) (actor : next.actor = t.actor) (state : next.state = t.state)
    (waiting : next.waiting = t.waiting) : next.Carries offered := by
  apply carries.idle
  · rw [loop]
  · rw [loop]
    exact fun unended => unended
  · rw [queued, queued, ctrl, actor]
    exact fun _ => rfl
  · rw [actor]
    exact fun handling => ⟨handling, waiting, state⟩

theorem setLoop_loop (t : Tasks) (loop : SwarmLoop) : (t.setLoop loop).loop = loop := by
  rw [setLoop]
  split <;> rfl

theorem setLoop_queued (t : Tasks) {loop : SwarmLoop} (unended : loop.phase ≠ .ended) :
    t.setLoop loop = { t with loop := loop } := if_neg unended

/-- A step of the loop that publishes nothing. -/
theorem Carries.setLoop (carries : t.Carries offered) (unended : t.loop.phase ≠ .ended)
    (events : Mpsc.Channel Event) {loop : SwarmLoop}
    (published : loop.published = t.loop.published) :
    (Tasks.setLoop { t with events := events } loop).Carries offered := by
  apply carries.idle
  · rw [setLoop_loop]
    exact published
  · exact fun _ => unended
  · intro later
    rw [setLoop_loop] at later
    rw [setLoop_queued _ later]
    rfl
  · intro handling
    rw [Tasks.setLoop] at handling ⊢
    split at handling
    · rename_i ended
      rw [if_pos ended]
      exact ⟨handling, rfl, rfl⟩
    · rename_i later
      rw [if_neg later]
      exact ⟨handling, rfl, rfl⟩

theorem carries_recvCtrl (carries : t.Carries offered) (taken : t.step .recvCtrl = some next) :
    next.Carries offered := by
  rw [step] at taken
  split at taken
  · rename_i msg ctrl received
    obtain ⟨loop, handled, rfl⟩ := Option.map_eq_some_iff.mp taken
    obtain ⟨selecting, rfl⟩ := SwarmLoop.onCtrlMsg_eq_some.mp handled
    obtain ⟨queue, _, _⟩ := Mpsc.Channel.recv_eq_some received
    have unended : t.loop.phase ≠ .ended := by simp [selecting]
    cases msg with
    | shutdown =>
        -- the loop ends, so that only what was published before counts
        have ended : (handleCtrlMsg .shutdown).2.phase = .ended := rfl
        rw [Tasks.setLoop, if_pos ended]
        refine ⟨?_, fun later => absurd ended later, fun later => absurd ended later,
          carries.running⟩
        simpa [handleCtrlMsg] using carries.published
    | broadcastMsg channel data =>
        have later : (handleCtrlMsg (.broadcastMsg channel data)).2.phase ≠ .ended := by
          simp [handleCtrlMsg, Flow.phase]
        have moved : t.queued = (channel.topicHash, data) ::
            (ctrl.queue.filterMap CtrlMsg.publication ++ t.actor.publication.toList) := by
          rw [queued, queue]
          rfl
        have underway := carries.underway unended
        have whole := carries.whole unended
        rw [moved, ← List.singleton_append, ← List.append_assoc] at underway whole
        rw [setLoop_queued _ later]
        exact ⟨(List.prefix_append _ _).trans underway, fun _ => underway, fun _ => whole,
          carries.running⟩
  · cases taken

/-- A send on the control channel, after which the actor goes on or has failed. -/
theorem carries_sendCtrl (carries : t.Carries offered) {msg : CtrlMsg} {phase : ActorPhase}
    (same : t.actor.publication = msg.publication) (quiet : phase.publication = none)
    (handling : phase.handling = true → t.actor.handling = true)
    (taken : t.sendCtrl msg phase = some next) : next.Carries offered := by
  obtain ⟨⟨delivered, ctrl⟩, sent, rfl⟩ := Option.map_eq_some_iff.mp taken
  obtain ⟨_, _, _, queue⟩ := Mpsc.Channel.send_eq_some sent
  cases delivered with
  | true =>
      refine carries.idle rfl (fun unended => unended) ?_ ?_
      · intro _
        simp only [if_true] at queue ⊢
        have last : [msg].filterMap CtrlMsg.publication = msg.publication.toList := by
          cases msg <;> rfl
        rw [queued, queue, List.filterMap_append, queued, same, quiet, last]
        simp
      · exact fun isHandling => ⟨handling isHandling, rfl, rfl⟩
  | false =>
      refine ⟨carries.published, ?_, ?_, ?_⟩
      · intro unended
        refine List.IsPrefix.trans ?_ (carries.underway unended)
        simp [dropCtrlHandle, queued, ActorPhase.publication, Mpsc.Channel.dropSender]
      · intro _ isHandling
        simp [dropCtrlHandle, ActorPhase.handling] at isHandling
      · intro isHandling
        simp [dropCtrlHandle, ActorPhase.handling] at isHandling

theorem carries_handle (carries : t.Carries offered) (taken : t.step .handle = some next) :
    next.Carries offered := by
  rw [step] at taken
  split at taken
  · rename_i msg rest isIdle mailbox
    split at taken
    · cases taken
    · obtain rfl := Option.some.inj taken
      have handling : t.actor.handling = true := by rw [isIdle]; rfl
      have running := carries.running handling
      have moved : ((ActorPhase.afterHandle (handle msg t.state).2).publication).toList ++
          rest.filterMap Msg.publication = t.waiting := by
        cases state : t.state with
        | stopped => exact absurd state running
        | running peers outputPort =>
            rw [handle_publication, waiting, mailbox, List.filterMap_cons]
            cases msg.publication <;> rfl
      have before : t.queued = t.ctrl.queue.filterMap CtrlMsg.publication := by
        rw [queued, isIdle]
        exact List.append_nil _
      have content : t.loop.phase ≠ .ended → t.loop.published ++
          (t.ctrl.queue.filterMap CtrlMsg.publication ++
            (ActorPhase.afterHandle (handle msg t.state).2).publication.toList) ++
          rest.filterMap Msg.publication = offered := by
        intro unended
        rw [← carries.whole unended handling, before, ← moved]
        simp only [List.append_assoc]
      refine ⟨carries.published, ?_, fun unended _ => content unended,
        fun _ => handle_running running⟩
      intro unended
      exact ⟨_, content unended⟩
  · cases taken

theorem carries_request (carries : t.Carries offered) (msg : Msg) :
    (if t.actor.dead then t else t.post msg).Carries (offered ++ msg.publication.toList) := by
  have longer : offered <+: offered ++ msg.publication.toList := List.prefix_append _ _
  split
  · rename_i dead
    have idle : t.actor.handling ≠ true := by
      cases actor : t.actor with
      | stopped | failed => simp [ActorPhase.handling]
      | idle | broadcasting | shuttingDown | joining | awaiting =>
          rw [actor] at dead
          cases dead
    exact ⟨carries.published.trans longer, fun unended => (carries.underway unended).trans longer,
      fun _ handling => absurd handling idle, carries.running⟩
  · refine ⟨carries.published.trans longer, fun unended => (carries.underway unended).trans longer,
      ?_, carries.running⟩
    intro unended handling
    have whole := carries.whole unended handling
    have added : (t.post msg).waiting = t.waiting ++ msg.publication.toList := by
      rw [waiting, post, List.filterMap_append, waiting]
      cases msg <;> rfl
    rw [added, ← List.append_assoc]
    exact congrArg (· ++ msg.publication.toList) whole

theorem carries_listen {listening : Bool} (carries : t.Carries offered)
    (taken : t.step (.listen listening) = some next) : next.Carries offered := by
  obtain ⟨loop, listened, rfl⟩ := Option.map_eq_some_iff.mp taken
  rw [SwarmLoop.listen] at listened
  split at listened
  · rename_i starting
    obtain rfl := Option.some.inj listened
    exact carries.setLoop (by simp [starting]) t.events rfl
  · cases listened

theorem carries_sendEvent (carries : t.Carries offered) (taken : t.step .sendEvent = some next) :
    next.Carries offered := by
  rw [step] at taken
  split at taken
  · rename_i event sending
    obtain ⟨⟨delivered, events⟩, _, taken⟩ := Option.bind_eq_some_iff.mp taken
    obtain ⟨loop, handled, rfl⟩ := Option.map_eq_some_iff.mp taken
    obtain ⟨_, _, rfl⟩ := SwarmLoop.onSend_eq_some.mp handled
    exact carries.setLoop (by simp [sending]) events rfl
  · cases taken

theorem carries_recvEvent (carries : t.Carries offered) (taken : t.step .recvEvent = some next) :
    next.Carries offered := by
  rw [step] at taken
  split at taken
  · obtain ⟨⟨got, events⟩, _, rfl⟩ := Option.map_eq_some_iff.mp taken
    cases got <;> exact carries.aside rfl rfl rfl rfl rfl
  · cases taken

theorem carries_cast {accepted : Bool} (carries : t.Carries offered)
    (taken : t.step (.cast accepted) = some next) : next.Carries offered := by
  rw [step] at taken
  split at taken
  · split at taken
    · obtain rfl := Option.some.inj taken
      cases accepted with
      | true =>
          refine carries.aside rfl rfl rfl rfl ?_
          simp [waiting, post, Msg.publication]
      | false => exact carries.aside rfl rfl rfl rfl rfl
    · cases taken
  · cases taken

/-- Every step but a request leaves the content of the way out as it is. -/
theorem carries_unasked {a : Label} (unasked : ∀ msg, a ≠ .request msg)
    (carries : t.Carries offered) (taken : t.step a = some next) : next.Carries offered := by
  cases a with
  | request msg => exact absurd rfl (unasked msg)
  | recvCtrl => exact carries_recvCtrl carries taken
  | handle => exact carries_handle carries taken
  | listen listening => exact carries_listen carries taken
  | sendEvent => exact carries_sendEvent carries taken
  | recvEvent => exact carries_recvEvent carries taken
  | cast accepted => exact carries_cast carries taken
  | swarmEvent event =>
      obtain ⟨loop, handled, rfl⟩ := Option.map_eq_some_iff.mp taken
      obtain ⟨selecting, rfl⟩ := SwarmLoop.onSwarmEvent_eq_some.mp handled
      exact carries.setLoop (by simp [selecting]) t.events rfl
  | requestStop =>
      obtain rfl := Option.some.inj taken
      exact carries.aside rfl rfl rfl rfl rfl
  | sendBroadcast =>
      rw [step] at taken
      split at taken
      · rename_i msg broadcasting
        exact carries_sendCtrl carries (by rw [broadcasting]; rfl) rfl
          (fun _ => by rw [broadcasting]; rfl) taken
      · cases taken
  | sendShutdown =>
      rw [step] at taken
      split at taken
      · rename_i shuttingDown
        exact carries_sendCtrl carries (by rw [shuttingDown]; rfl) rfl
          (fun handling => by cases handling) taken
      · cases taken
  | stop | join | awaitRecvTask =>
      rw [step] at taken
      split at taken
      · rename_i phase
        split at taken
        · obtain rfl := Option.some.inj taken
          refine carries.idle rfl (fun unended => unended) (fun _ => ?_)
            (fun handling => by cases handling)
          simp [queued, phase, ActorPhase.publication, dropCtrlHandle, Mpsc.Channel.dropSender]
        · cases taken
      · cases taken

/-! ## The way in -/

end Tasks

/-- What the first subscriber of the output port has not received yet. -/
def ActorState.pending : ActorState → List Event
  | .stopped => []
  | .running _ outputPort => (outputPort.receivers.head?.map (·.pending)).getD []

def RecvTask.event : RecvTask → Option Event
  | .casting event => some event
  | _ => none

namespace Tasks

/-- Everything between the swarm and the first subscriber, oldest first. -/
def upstream (t : Tasks) : List Event :=
  t.state.pending ++ (t.mailbox.filterMap Msg.event ++
    (t.recvTask.event.toList ++ (t.events.queue ++ t.loop.phase.pending)))

end Tasks

theorem offer_pending_sublist (capacity : Option Nat) (event : Event)
    (r : Broadcast.Receiver Event) :
    (r.offer capacity event).pending.Sublist (r.pending ++ [event]) := by
  cases waiting : r.pending with
  | nil => simp [Broadcast.Receiver.offer, waiting]
  | cons oldest rest =>
      simp only [Broadcast.Receiver.offer, waiting]
      split
      · exact (List.sublist_cons_self oldest rest).append_right [event]
      · exact List.Sublist.refl _

theorem publish_pending_sublist (peers peers' : Finset PeerId)
    (outputPort : Broadcast.Channel Event) (event : Event) :
    (ActorState.running peers' (publish outputPort event)).pending.Sublist
      ((ActorState.running peers outputPort).pending ++ [event]) := by
  obtain ⟨capacity, receivers⟩ := outputPort
  cases receivers with
  | nil => simp [ActorState.pending, publish]
  | cons r rest =>
      simp only [ActorState.pending, publish, Broadcast.Channel.send, List.length_cons,
        Nat.zero_lt_succ, if_true, List.map_cons, List.head?_cons, Option.map_some,
        Option.getD_some]
      exact offer_pending_sublist capacity event r

/-- A handled message publishes at most the event it brings. -/
theorem handle_pending_sublist (msg : Msg) (state : ActorState) :
    (handle msg state).1.pending.Sublist (state.pending ++ msg.event.toList) := by
  cases state with
  | stopped => exact List.nil_sublist _
  | running peers outputPort =>
      cases msg with
      | subscribe =>
          obtain ⟨capacity, receivers⟩ := outputPort
          cases receivers <;>
            simp [handle, ActorState.pending, Broadcast.Channel.subscribe, Msg.event]
      | broadcast batch => simp [handle, toNetworkBytes_eq, Msg.event]
      | newEvent event => exact publish_pending_sublist peers _ outputPort event

namespace Tasks

variable {t next : Tasks}

theorem setLoop_upstream (t : Tasks) (loop : SwarmLoop) :
    (t.setLoop loop).upstream = { t with loop := loop }.upstream := by
  rw [setLoop]
  split <;> rfl

/-- What follows some stages of the pipeline is lost together with their content. -/
theorem upstream_endRecvTask (t : Tasks) : t.endRecvTask.upstream.Sublist t.upstream := by
  unfold upstream endRecvTask
  refine List.Sublist.append_left (List.Sublist.append_left ?_ _) _
  exact (List.sublist_append_right _ _).trans (List.sublist_append_right _ _)

theorem upstream_sendEvent (taken : t.step .sendEvent = some next) :
    next.upstream.Sublist t.upstream := by
  rw [step] at taken
  split at taken
  · rename_i event sending
    obtain ⟨⟨delivered, events⟩, sent, taken⟩ := Option.bind_eq_some_iff.mp taken
    obtain ⟨loop, handled, rfl⟩ := Option.map_eq_some_iff.mp taken
    obtain ⟨event', sending', rfl⟩ := SwarmLoop.onSend_eq_some.mp handled
    obtain rfl := SwarmPhase.sending.inj (sending.symm.trans sending')
    obtain ⟨_, _, _, queue⟩ := Mpsc.Channel.send_eq_some sent
    rw [setLoop_upstream]
    unfold upstream
    refine List.Sublist.append_left (List.Sublist.append_left (List.Sublist.append_left ?_ _) _) _
    rw [queue, sending]
    cases delivered <;> simp [Flow.ofSend, Flow.phase, SwarmPhase.pending]
  · cases taken

theorem upstream_listen {listening : Bool} (taken : t.step (.listen listening) = some next) :
    next.upstream.Sublist t.upstream := by
  obtain ⟨loop, listened, rfl⟩ := Option.map_eq_some_iff.mp taken
  rw [SwarmLoop.listen] at listened
  split at listened
  · rename_i starting
    obtain rfl := Option.some.inj listened
    rw [setLoop_upstream]
    cases listening <;> simp [upstream, starting, SwarmPhase.pending]
  · cases listened

theorem upstream_recvCtrl (taken : t.step .recvCtrl = some next) :
    next.upstream.Sublist t.upstream := by
  rw [step] at taken
  split at taken
  · rename_i msg ctrl _
    obtain ⟨loop, handled, rfl⟩ := Option.map_eq_some_iff.mp taken
    obtain ⟨selecting, rfl⟩ := SwarmLoop.onCtrlMsg_eq_some.mp handled
    rw [setLoop_upstream]
    cases msg <;> simp [upstream, selecting, handleCtrlMsg, Flow.phase, SwarmPhase.pending]
  · cases taken

theorem upstream_recvEvent (taken : t.step .recvEvent = some next) :
    next.upstream.Sublist t.upstream := by
  rw [step] at taken
  split at taken
  · rename_i receiving
    obtain ⟨⟨got, events⟩, received, rfl⟩ := Option.map_eq_some_iff.mp taken
    obtain ⟨queue, _, _⟩ := Mpsc.Channel.recv_eq_some received
    cases got with
    | some event => simp [onRecv, upstream, receiving, queue, RecvTask.event]
    | none =>
        refine (upstream_endRecvTask _).trans ?_
        simp [upstream, queue]
  · cases taken

theorem upstream_cast {accepted : Bool} (taken : t.step (.cast accepted) = some next) :
    next.upstream.Sublist t.upstream := by
  rw [step] at taken
  split at taken
  · rename_i event casting
    split at taken
    · obtain rfl := Option.some.inj taken
      cases accepted with
      | true => simp [upstream, post, casting, RecvTask.event, Msg.event, List.filterMap_append]
      | false => exact upstream_endRecvTask t
    · cases taken
  · cases taken

theorem upstream_handle (taken : t.step .handle = some next) :
    next.upstream.Sublist t.upstream := by
  rw [step] at taken
  split at taken
  · rename_i msg rest _ mailbox
    split at taken
    · cases taken
    · obtain rfl := Option.some.inj taken
      have first : t.mailbox.filterMap Msg.event =
          msg.event.toList ++ rest.filterMap Msg.event := by
        rw [mailbox, List.filterMap_cons]
        cases msg.event <;> rfl
      unfold upstream
      rw [first, List.append_assoc, ← List.append_assoc t.state.pending]
      exact (handle_pending_sublist msg t.state).append_right _
  · cases taken

theorem upstream_sendCtrl {msg : CtrlMsg} {phase : ActorPhase}
    (taken : t.sendCtrl msg phase = some next) : next.upstream = t.upstream := by
  obtain ⟨⟨delivered, ctrl⟩, _, rfl⟩ := Option.map_eq_some_iff.mp taken
  cases delivered <;> rfl

theorem upstream_request {msg : Msg} (ordinary : ∀ event, msg ≠ .newEvent event) :
    (if t.actor.dead then t else t.post msg).upstream = t.upstream := by
  split
  · rfl
  · cases msg with
    | subscribe | broadcast => simp [upstream, post, Msg.event]
    | newEvent event => exact absurd rfl (ordinary event)

/-- A step that is not an event of the swarm loses some of the way in and keeps
    the rest in order.  Only `recv_task` brings events to the actor. -/
theorem upstream_shrinks {a : Label} (swarm : ∀ event, a ≠ .swarmEvent event)
    (ordinary : ∀ event, a ≠ .request (.newEvent event)) (taken : t.step a = some next) :
    next.upstream.Sublist t.upstream := by
  cases a with
  | swarmEvent event => exact absurd rfl (swarm event)
  | listen listening => exact upstream_listen taken
  | recvCtrl => exact upstream_recvCtrl taken
  | sendEvent => exact upstream_sendEvent taken
  | recvEvent => exact upstream_recvEvent taken
  | cast accepted => exact upstream_cast taken
  | handle => exact upstream_handle taken
  | request msg =>
      obtain rfl := Option.some.inj taken
      rw [upstream_request (fun event same => ordinary event (congrArg Label.request same))]
  | requestStop =>
      obtain rfl := Option.some.inj taken
      exact List.Sublist.refl _
  | sendBroadcast | sendShutdown =>
      rw [step] at taken
      split at taken
      · rw [upstream_sendCtrl taken]
      · cases taken
  | stop | join =>
      rw [step] at taken
      split at taken
      · split at taken
        · obtain rfl := Option.some.inj taken
          exact List.Sublist.refl _
        · cases taken
      · cases taken
  | awaitRecvTask =>
      -- what the output port still holds goes with the state
      rw [step] at taken
      split at taken
      · split at taken
        · obtain rfl := Option.some.inj taken
          exact (List.nil_sublist _).append_right _
        · cases taken
      · cases taken

theorem upstream_swarmEvent {event : SwarmEvent} (taken : t.step (.swarmEvent event) = some next) :
    next.upstream = t.upstream ++ (handleSwarmEvent event t.loop.state).2.phase.pending := by
  obtain ⟨loop, handled, rfl⟩ := Option.map_eq_some_iff.mp taken
  obtain ⟨selecting, rfl⟩ := SwarmLoop.onSwarmEvent_eq_some.mp handled
  rw [setLoop_upstream]
  simp [upstream, selecting, SwarmPhase.pending]

/-- The messages among the events between the swarm and the first subscriber. -/
def incoming (t : Tasks) : List Event := t.upstream.filter Event.isMessage

/-- Of the messages on the way in, every step keeps some in order, and adds at
    most the acceptable message that it is. -/
theorem incoming_step {a : Label} (ordinary : ∀ event, a ≠ .request (.newEvent event))
    (taken : system.step t a = some next) :
    next.incoming.Sublist (t.incoming ++ a.gossiped.toList) := by
  change t.step a = some next at taken
  by_cases swarm : ∃ event, a = .swarmEvent event
  · obtain ⟨event, rfl⟩ := swarm
    rw [incoming, upstream_swarmEvent taken, List.filter_append, handleSwarmEvent_messages]
    exact List.Sublist.refl _
  · push Not at swarm
    have shrinks := (upstream_shrinks swarm ordinary taken).filter Event.isMessage
    exact shrinks.trans (List.sublist_append_left _ _)

end Tasks

end MalachiteMempool.Network
