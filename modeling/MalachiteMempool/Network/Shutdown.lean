import MalachiteMempool.Network.System

/-! # Shutdown of the network actor

There is a cycle of waits: the actor waits for room in the control channel, the
loop for room in the event channel, and `post_stop` for the loop and for
`recv_task`.  What breaks it is that `recv_task` never waits for the actor: a
cast returns at once.

The invariant says which ends of the channels are still held, and that a
`Shutdown` is on its way while `post_stop` waits for the loop.
-/

namespace MalachiteMempool.Network.Tasks

structure Sound (t : Tasks) : Prop where
  eventsSender : t.events.sender = false ↔ t.loop.phase = .ended
  ctrlReceiver : t.ctrl.receiver = false ↔ t.loop.phase = .ended
  eventsReceiver : t.events.receiver = false ↔ t.recvTask = .ended
  asked : t.actor = .joining → t.loop.phase = .ended ∨ .shutdown ∈ t.ctrl.queue
  loopEnded : t.actor = .awaiting ∨ t.actor.dead = true → t.loop.phase = .ended
  recvTaskEnded : t.actor = .stopped → t.recvTask = .ended

theorem sound_start (capacities : Capacities) : Sound (start capacities) where
  eventsSender := by simp [start, SwarmLoop.start, Mpsc.Channel.empty]
  ctrlReceiver := by simp [start, SwarmLoop.start, Mpsc.Channel.empty]
  eventsReceiver := by simp [start, Mpsc.Channel.empty]
  asked := by simp [start]
  loopEnded := by simp [start, ActorPhase.dead]
  recvTaskEnded := by simp [start]

/-! ## The loop -/

/-- A turn of the loop may use both channels, but it keeps a pending `Shutdown`
    unless it handles it. -/
theorem Sound.setLoop {t : Tasks} (sound : Sound t) (running : t.loop.phase ≠ .ended)
    {events : Mpsc.Channel Event} {ctrl : Mpsc.Channel CtrlMsg} {loop : SwarmLoop}
    (eventsEnds : events.sender = t.events.sender ∧ events.receiver = t.events.receiver)
    (ctrlEnds : ctrl.sender = t.ctrl.sender ∧ ctrl.receiver = t.ctrl.receiver)
    (kept : .shutdown ∈ t.ctrl.queue → loop.phase = .ended ∨ .shutdown ∈ ctrl.queue) :
    Sound (Tasks.setLoop { t with events := events, ctrl := ctrl } loop) := by
  have active : ¬ (t.actor = .awaiting ∨ t.actor.dead = true) :=
    fun later => running (sound.loopEnded later)
  have unstopped : t.actor ≠ .stopped := by
    intro isStopped
    exact active (.inr (by rw [isStopped]; rfl))
  rw [Tasks.setLoop]
  split
  · rename_i ended
    exact {
      eventsSender := by simp [ended]
      ctrlReceiver := by simp [ended]
      eventsReceiver := by simpa [eventsEnds.2] using sound.eventsReceiver
      asked := fun _ => .inl ended
      loopEnded := fun _ => ended
      recvTaskEnded := fun isStopped => absurd isStopped unstopped }
  · rename_i unended
    have eventsHeld : events.sender ≠ false := by
      rw [eventsEnds.1]
      exact fun dropped => running (sound.eventsSender.mp dropped)
    have ctrlHeld : ctrl.receiver ≠ false := by
      rw [ctrlEnds.2]
      exact fun dropped => running (sound.ctrlReceiver.mp dropped)
    exact {
      eventsSender := ⟨fun dropped => absurd dropped eventsHeld, fun ended => absurd ended unended⟩
      ctrlReceiver := ⟨fun dropped => absurd dropped ctrlHeld, fun ended => absurd ended unended⟩
      eventsReceiver := by simpa [eventsEnds.2] using sound.eventsReceiver
      asked := by
        intro isJoining
        rcases sound.asked isJoining with ended | pending
        · exact absurd ended running
        · exact kept pending
      loopEnded := fun later => absurd later active
      recvTaskEnded := fun isStopped => absurd isStopped unstopped }

theorem swarmEvent_sound {t : Tasks} (sound : Sound t) {event : SwarmEvent} {loop : SwarmLoop}
    (handled : t.loop.onSwarmEvent event = some loop) : Sound (t.setLoop loop) := by
  obtain ⟨selecting, _⟩ := SwarmLoop.onSwarmEvent_eq_some.mp handled
  have running : t.loop.phase ≠ .ended := by simp [selecting]
  exact sound.setLoop running ⟨rfl, rfl⟩ ⟨rfl, rfl⟩ .inr

theorem listen_sound {t : Tasks} (sound : Sound t) {listening : Bool} {loop : SwarmLoop}
    (handled : t.loop.listen listening = some loop) : Sound (t.setLoop loop) := by
  have running : t.loop.phase ≠ .ended := by
    intro ended
    rw [SwarmLoop.listen, ended] at handled
    cases handled
  exact sound.setLoop running ⟨rfl, rfl⟩ ⟨rfl, rfl⟩ .inr

theorem recvCtrl_sound {t : Tasks} (sound : Sound t) {msg : CtrlMsg}
    {ctrl : Mpsc.Channel CtrlMsg} {loop : SwarmLoop}
    (received : t.ctrl.recv = some (some msg, ctrl)) (handled : t.loop.onCtrlMsg msg = some loop) :
    Sound (Tasks.setLoop { t with ctrl := ctrl } loop) := by
  obtain ⟨selecting, rfl⟩ := SwarmLoop.onCtrlMsg_eq_some.mp handled
  have running : t.loop.phase ≠ .ended := by simp [selecting]
  obtain ⟨queue, ends⟩ := Mpsc.Channel.recv_eq_some received
  refine sound.setLoop running ⟨rfl, rfl⟩ ends ?_
  intro pending
  rw [queue, Option.toList_some, List.singleton_append, List.mem_cons] at pending
  rcases pending with isShutdown | later
  · rw [← isShutdown]
    exact .inl rfl
  · exact .inr later

theorem sendEvent_sound {t : Tasks} (sound : Sound t) {event : Event} {delivered : Bool}
    {events : Mpsc.Channel Event} {loop : SwarmLoop}
    (sent : t.events.send event = some (delivered, events))
    (handled : t.loop.onSend delivered = some loop) :
    Sound (Tasks.setLoop { t with events := events } loop) := by
  obtain ⟨_, sending, _⟩ := SwarmLoop.onSend_eq_some.mp handled
  have running : t.loop.phase ≠ .ended := by simp [sending]
  obtain ⟨_, senderSame, receiverSame, _⟩ := Mpsc.Channel.send_eq_some sent
  exact sound.setLoop running ⟨senderSame, receiverSame⟩ ⟨rfl, rfl⟩ .inr

/-! ## The receiving task -/

/-- `recv_task` goes on; it has not ended before. -/
theorem Sound.setRecvTask {t : Tasks} (sound : Sound t) (running : t.recvTask ≠ .ended)
    {events : Mpsc.Channel Event} {recvTask : RecvTask} {mailbox : List Msg}
    (sender : events.sender = t.events.sender)
    (receiver : events.receiver = false ↔ recvTask = .ended) :
    Sound { t with events := events, recvTask := recvTask, mailbox := mailbox } where
  eventsSender := by
    rw [← sound.eventsSender, sender]
  ctrlReceiver := sound.ctrlReceiver
  eventsReceiver := receiver
  asked := sound.asked
  loopEnded := sound.loopEnded
  recvTaskEnded := fun isStopped => absurd (sound.recvTaskEnded isStopped) running

theorem Sound.receiver_held {t : Tasks} (sound : Sound t) (running : t.recvTask ≠ .ended) :
    t.events.receiver ≠ false :=
  fun dropped => running (sound.eventsReceiver.mp dropped)

theorem recvEvent_sound {t : Tasks} (sound : Sound t) (receiving : t.recvTask = .receiving)
    {got : Option Event} {events : Mpsc.Channel Event}
    (received : t.events.recv = some (got, events)) :
    Sound (onRecv { t with events := events } got) := by
  have running : t.recvTask ≠ .ended := by simp [receiving]
  obtain ⟨_, sender, receiver⟩ := Mpsc.Channel.recv_eq_some received
  have held := sound.receiver_held running
  cases got with
  | some event =>
      refine sound.setRecvTask running sender ?_
      rw [receiver]
      simp [held]
  | none =>
      refine sound.setRecvTask running ?_ ?_
      · simpa using sender
      · simp

theorem cast_sound {t : Tasks} (sound : Sound t) {event : Event}
    (casting : t.recvTask = .casting event) (accepted : Bool) :
    Sound (if accepted then { t.post (.newEvent event) with recvTask := .receiving }
      else t.endRecvTask) := by
  have running : t.recvTask ≠ .ended := by simp [casting]
  have held := sound.receiver_held running
  cases accepted with
  | true =>
      refine sound.setRecvTask running rfl ?_
      simp [post, held]
  | false =>
      refine sound.setRecvTask running ?_ ?_
      · simp
      · simp

/-! ## The actor -/

/-- The actor goes on in a phase that makes no promise about the tasks. -/
theorem Sound.setActor {t : Tasks} (sound : Sound t) {phase : ActorPhase} {state : ActorState}
    {mailbox : List Msg} (unasked : phase ≠ .joining) (early : phase ≠ .awaiting)
    (alive : phase.dead = false) :
    Sound { t with actor := phase, state := state, mailbox := mailbox } where
  eventsSender := sound.eventsSender
  ctrlReceiver := sound.ctrlReceiver
  eventsReceiver := sound.eventsReceiver
  asked := fun isJoining => absurd isJoining unasked
  loopEnded := by
    rintro (isAwaiting | isDead)
    · exact absurd isAwaiting early
    · simp [alive] at isDead
  recvTaskEnded := by
    rintro rfl
    cases alive

/-- A control message is sent, or the loop has ended. -/
theorem sendCtrl_sound {t next : Tasks} (sound : Sound t) {msg : CtrlMsg} {phase : ActorPhase}
    (early : phase ≠ .awaiting) (alive : phase.dead = false)
    (shuts : phase = .joining → msg = .shutdown) (sent : t.sendCtrl msg phase = some next) :
    Sound next := by
  obtain ⟨⟨delivered, ctrl⟩, isSent, rfl⟩ := Option.map_eq_some_iff.mp sent
  obtain ⟨isOpen, _, receiver, queue⟩ := Mpsc.Channel.send_eq_some isSent
  cases delivered with
  | true =>
      exact {
        eventsSender := sound.eventsSender
        ctrlReceiver := by
          change ctrl.receiver = false ↔ _
          rw [receiver]
          exact sound.ctrlReceiver
        eventsReceiver := sound.eventsReceiver
        asked := by
          intro isJoining
          refine .inr ?_
          change .shutdown ∈ ctrl.queue
          rw [queue, shuts isJoining]
          simp
        loopEnded := by
          rintro (isAwaiting | isDead)
          · exact absurd isAwaiting early
          · exact absurd isDead (by simp [alive])
        recvTaskEnded := by
          rintro rfl
          cases alive }
  | false =>
      have ended : t.loop.phase = .ended := sound.ctrlReceiver.mp isOpen.symm
      exact {
        eventsSender := sound.eventsSender
        ctrlReceiver := sound.ctrlReceiver
        eventsReceiver := sound.eventsReceiver
        asked := fun isJoining => by cases isJoining
        loopEnded := fun _ => ended
        recvTaskEnded := fun isStopped => by cases isStopped }

theorem join_sound {t : Tasks} (sound : Sound t) (ended : t.loop.phase = .ended) :
    Sound (t.dropCtrlHandle .awaiting) where
  eventsSender := sound.eventsSender
  ctrlReceiver := sound.ctrlReceiver
  eventsReceiver := sound.eventsReceiver
  asked := fun isJoining => by cases isJoining
  loopEnded := fun _ => ended
  recvTaskEnded := fun isStopped => by cases isStopped

theorem awaitRecvTask_sound {t : Tasks} (sound : Sound t) (isAwaiting : t.actor = .awaiting)
    (ended : t.recvTask = .ended) : Sound { t with actor := .stopped, state := .stopped } where
  eventsSender := sound.eventsSender
  ctrlReceiver := sound.ctrlReceiver
  eventsReceiver := sound.eventsReceiver
  asked := fun isJoining => by cases isJoining
  loopEnded := fun _ => sound.loopEnded (.inl isAwaiting)
  recvTaskEnded := fun _ => ended

theorem handle_sound {t : Tasks} (sound : Sound t) (state : ActorState) (mailbox : List Msg)
    (ctrl : Option CtrlMsg) :
    Sound { t with
      state := state
      mailbox := mailbox
      actor := ActorPhase.afterHandle ctrl } := by
  cases ctrl with
  | some msg =>
      apply sound.setActor
      · simp [ActorPhase.afterHandle]
      · simp [ActorPhase.afterHandle]
      · rfl
  | none =>
      apply sound.setActor
      · simp [ActorPhase.afterHandle]
      · simp [ActorPhase.afterHandle]
      · rfl

theorem step_sound {t next : Tasks} {a : Label} (sound : Sound t)
    (taken : system.step t a = some next) : Sound next := by
  change t.step a = some next at taken
  cases a with
  | swarmEvent event =>
      obtain ⟨loop, handled, rfl⟩ := Option.map_eq_some_iff.mp taken
      exact swarmEvent_sound sound handled
  | request msg =>
      obtain rfl := Option.some.inj taken
      split
      · exact sound
      · exact { sound with }
  | requestStop =>
      obtain rfl := Option.some.inj taken
      exact { sound with }
  | listen listening =>
      obtain ⟨loop, handled, rfl⟩ := Option.map_eq_some_iff.mp taken
      exact listen_sound sound handled
  | recvCtrl =>
      rw [step] at taken
      split at taken
      · rename_i msg ctrl received
        obtain ⟨loop, handled, rfl⟩ := Option.map_eq_some_iff.mp taken
        exact recvCtrl_sound sound received handled
      · cases taken
  | sendEvent =>
      rw [step] at taken
      split at taken
      · obtain ⟨⟨delivered, events⟩, sent, taken⟩ := Option.bind_eq_some_iff.mp taken
        obtain ⟨loop, handled, rfl⟩ := Option.map_eq_some_iff.mp taken
        exact sendEvent_sound sound sent handled
      · cases taken
  | recvEvent =>
      rw [step] at taken
      split at taken
      · rename_i receiving
        obtain ⟨⟨got, events⟩, received, rfl⟩ := Option.map_eq_some_iff.mp taken
        exact recvEvent_sound sound receiving received
      · cases taken
  | cast accepted =>
      rw [step] at taken
      split at taken
      · rename_i casting
        split at taken
        · obtain rfl := Option.some.inj taken
          exact cast_sound sound casting accepted
        · cases taken
      · cases taken
  | handle =>
      rw [step] at taken
      split at taken
      · split at taken
        · cases taken
        · obtain rfl := Option.some.inj taken
          exact handle_sound sound _ _ _
      · cases taken
  | sendBroadcast =>
      rw [step] at taken
      split at taken
      · exact sendCtrl_sound sound (by simp) rfl (fun isJoining => by cases isJoining) taken
      · cases taken
  | stop =>
      rw [step] at taken
      split at taken
      · split at taken
        · obtain rfl := Option.some.inj taken
          exact sound.setActor (by simp) (by simp) rfl
        · cases taken
      · cases taken
  | sendShutdown =>
      rw [step] at taken
      split at taken
      · exact sendCtrl_sound sound (by simp) rfl (fun _ => rfl) taken
      · cases taken
  | join =>
      rw [step] at taken
      split at taken
      · split at taken
        · rename_i ended
          obtain rfl := Option.some.inj taken
          exact join_sound sound ended
        · cases taken
      · cases taken
  | awaitRecvTask =>
      rw [step] at taken
      split at taken
      · rename_i isAwaiting
        split at taken
        · rename_i ended
          obtain rfl := Option.some.inj taken
          exact awaitRecvTask_sound sound isAwaiting ended
        · cases taken
      · cases taken

/-! ## Progress -/

/-- Some of the three processes can take a step. -/
def CanStep (t : Tasks) : Prop := ∃ a, a.internal = true ∧ (system.step t a).isSome = true

/-- Some process waits for room in a channel. -/
def Blocked (t : Tasks) : Prop :=
  (∃ event, t.loop.phase = .sending event) ∧ t.events.Full ∨
    ((∃ msg, t.actor = .broadcasting msg) ∨ t.actor = .shuttingDown) ∧ t.ctrl.Full

/-- `post_stop` waits for the swarm loop or for `recv_task`. -/
def PostStopWaits (t : Tasks) : Prop := t.actor = .joining ∨ t.actor = .awaiting

/-- `recv_task` never waits for the actor. -/
theorem canStep_of_casting {t : Tasks} {event : Event} (casting : t.recvTask = .casting event) :
    t.CanStep := by
  have answered : ∃ accepted, t.actor.mayAnswer accepted = true := by
    cases t.actor with
    | stopped | failed => exact ⟨false, rfl⟩
    | idle | broadcasting _ | shuttingDown | joining | awaiting => exact ⟨true, rfl⟩
  obtain ⟨accepted, answers⟩ := answered
  refine ⟨.cast accepted, rfl, ?_⟩
  simp [system, step, casting, answers]

/-- Nor does it wait for the loop when there is something to receive, or nothing
    more to come. -/
theorem canStep_of_received {t : Tasks} (running : t.recvTask ≠ .ended)
    (ready : t.events.queue ≠ [] ∨ t.events.sender = false) : t.CanStep := by
  cases task : t.recvTask with
  | ended => exact absurd task running
  | casting event => exact canStep_of_casting task
  | receiving =>
      refine ⟨.recvEvent, rfl, ?_⟩
      have answered : t.events.recv ≠ none := by
        intro waits
        obtain ⟨isEmpty, held⟩ := Mpsc.Channel.recv_eq_none.mp waits
        rcases ready with nonempty | dropped
        · exact nonempty isEmpty
        · simp [dropped] at held
      simp [system, step, task, Option.isSome_iff_ne_none, answered]

theorem canStep_of_sending {t : Tasks} (sound : Sound t) {event : Event}
    (sending : t.loop.phase = .sending event) : t.CanStep := by
  cases sent : t.events.send event with
  | some outcome =>
      refine ⟨.sendEvent, rfl, ?_⟩
      simp [system, step, sending, sent, SwarmLoop.onSend]
  | none =>
      have full := Mpsc.Channel.send_eq_none.mp sent
      have running : t.recvTask ≠ .ended := by
        intro ended
        have dropped := sound.eventsReceiver.mpr ended
        simp [full.1] at dropped
      exact canStep_of_received running (.inl full.nonempty)

/-- The loop gets to a pending control message. -/
theorem canStep_of_ctrl {t : Tasks} (sound : Sound t) (running : t.loop.phase ≠ .ended)
    (pending : t.ctrl.queue ≠ []) : t.CanStep := by
  cases phase : t.loop.phase with
  | ended => exact absurd phase running
  | sending event => exact canStep_of_sending sound phase
  | starting =>
      refine ⟨.listen true, rfl, ?_⟩
      simp [system, step, SwarmLoop.listen, phase]
  | selecting =>
      obtain ⟨msg, ctrl, received⟩ := Mpsc.Channel.recv_of_nonempty pending
      refine ⟨.recvCtrl, rfl, ?_⟩
      simp [system, step, received, SwarmLoop.onCtrlMsg, phase]

/-- A send of the actor is over, or the loop makes room for it. -/
theorem canStep_of_ctrl_full {t : Tasks} (sound : Sound t) (full : t.ctrl.Full) : t.CanStep := by
  have running : t.loop.phase ≠ .ended := by
    intro ended
    have dropped := sound.ctrlReceiver.mpr ended
    simp [full.1] at dropped
  exact canStep_of_ctrl sound running full.nonempty

theorem canStep_of_sendCtrl {t : Tasks} (sound : Sound t) {a : Label} (internal : a.internal = true)
    {msg : CtrlMsg} {phase : ActorPhase} (isSend : system.step t a = t.sendCtrl msg phase) :
    t.CanStep := by
  cases sent : t.ctrl.send msg with
  | none => exact canStep_of_ctrl_full sound (Mpsc.Channel.send_eq_none.mp sent)
  | some outcome =>
      refine ⟨a, internal, ?_⟩
      simp [isSend, sendCtrl, sent]

theorem canStep_of_loop_ended {t : Tasks} (sound : Sound t) (ended : t.loop.phase = .ended)
    (running : t.recvTask ≠ .ended) : t.CanStep :=
  canStep_of_received running (.inr (sound.eventsSender.mpr ended))

theorem canStep_of_joining {t : Tasks} (sound : Sound t) (isJoining : t.actor = .joining) :
    t.CanStep := by
  by_cases ended : t.loop.phase = .ended
  · refine ⟨.join, rfl, ?_⟩
    simp [system, step, isJoining, ended]
  · rcases sound.asked isJoining with already | pending
    · exact absurd already ended
    · exact canStep_of_ctrl sound ended (List.ne_nil_of_mem pending)

theorem canStep_of_awaiting {t : Tasks} (sound : Sound t) (isAwaiting : t.actor = .awaiting) :
    t.CanStep := by
  by_cases ended : t.recvTask = .ended
  · refine ⟨.awaitRecvTask, rfl, ?_⟩
    simp [system, step, isAwaiting, ended]
  · exact canStep_of_loop_ended sound (sound.loopEnded (.inl isAwaiting)) ended

theorem canStep_of_stopRequested {t : Tasks} (sound : Sound t) (requested : t.stopRequested = true)
    (unfinished : ¬ (t.loop.phase = .ended ∧ t.recvTask = .ended)) : t.CanStep := by
  cases phase : t.actor with
  | idle =>
      refine ⟨.stop, rfl, ?_⟩
      simp [system, step, phase, requested]
  | broadcasting msg =>
      have isSend : system.step t .sendBroadcast = t.sendCtrl msg .idle := by
        simp [system, step, phase]
      exact canStep_of_sendCtrl sound rfl isSend
  | shuttingDown =>
      have isSend : system.step t .sendShutdown = t.sendCtrl .shutdown .joining := by
        simp [system, step, phase]
      exact canStep_of_sendCtrl sound rfl isSend
  | joining => exact canStep_of_joining sound phase
  | awaiting => exact canStep_of_awaiting sound phase
  | stopped | failed =>
      have dead : t.actor.dead = true := by simp [phase, ActorPhase.dead]
      have ended : t.loop.phase = .ended := sound.loopEnded (.inr dead)
      exact canStep_of_loop_ended sound ended (fun recvEnded => unfinished ⟨ended, recvEnded⟩)

/-- Whatever the interleaving, a process that waits for room in a channel, or
    `post_stop` waiting for the tasks, leaves some process a step to take; and
    once a stop is requested there is one until both tasks have ended. -/
theorem network_tasks_never_stuck (capacities : Capacities) (labels : List Label) (t : Tasks)
    (ran : system.run (start capacities) labels = some t) :
    (t.Blocked ∨ t.PostStopWaits → t.CanStep) ∧
    (t.stopRequested = true → ¬ (t.loop.phase = .ended ∧ t.recvTask = .ended) → t.CanStep) := by
  have sound : Sound t :=
    system.run_induction (fun _ _ _ sound taken => step_sound sound taken)
      (sound_start capacities) ran
  refine ⟨?_, canStep_of_stopRequested sound⟩
  rintro ((⟨⟨event, sending⟩, _⟩ | ⟨_, full⟩) | isJoining | isAwaiting)
  · exact canStep_of_sending sound sending
  · exact canStep_of_ctrl_full sound full
  · exact canStep_of_joining sound isJoining
  · exact canStep_of_awaiting sound isAwaiting

/-- The channels are full: the loop waits for `recv_task`, and `post_stop` waits
    for the loop. -/
theorem full_channels_drain :
    ∃ t, system.run (start ⟨1, 1, Nat.one_pos, Nat.one_pos⟩)
        [.listen true, .swarmEvent (.newListenAddr ⟨""⟩), .sendEvent,
          .swarmEvent (.newListenAddr ⟨""⟩), .request (.broadcast ⟨{ typeUrl := "", value := [] }⟩),
          .handle, .sendBroadcast, .requestStop, .stop] = some t ∧
      t.loop.phase = .sending (.listening ⟨""⟩) ∧ t.events.Full ∧
      t.actor = .shuttingDown ∧ t.ctrl.Full ∧ t.CanStep := by
  obtain ⟨t, ran, sending, eventsFull, shuttingDown, ctrlFull⟩ :
      ∃ t, system.run (start ⟨1, 1, Nat.one_pos, Nat.one_pos⟩)
          [.listen true, .swarmEvent (.newListenAddr ⟨""⟩), .sendEvent,
            .swarmEvent (.newListenAddr ⟨""⟩),
            .request (.broadcast ⟨{ typeUrl := "", value := [] }⟩), .handle, .sendBroadcast,
            .requestStop, .stop] = some t ∧
        t.loop.phase = .sending (.listening ⟨""⟩) ∧ t.events.Full ∧
        t.actor = .shuttingDown ∧ t.ctrl.Full :=
    ⟨_, rfl, rfl, ⟨rfl, rfl⟩, rfl, ⟨rfl, rfl⟩⟩
  have blocked : t.Blocked := .inr ⟨.inr shuttingDown, ctrlFull⟩
  have progress := (network_tasks_never_stuck _ _ t ran).1 (.inl blocked)
  exact ⟨t, ran, sending, eventsFull, shuttingDown, ctrlFull, progress⟩

end MalachiteMempool.Network.Tasks
