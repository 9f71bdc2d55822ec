import MalachiteMempool.Network.Shutdown

/-! # A requested stop completes

Each message and each process of the network actor has a number of steps left
to go, whatever becomes of it: an event goes through the channel, `recv_task`
and the mailbox, a batch through the mailbox and the control channel, and
`post_stop` through its waits.  No step of the three processes makes new work,
so between two events from outside they come to rest; and once a stop is
requested they only rest when the actor is gone and both tasks have ended.
-/

namespace MalachiteMempool.Network

def SwarmPhase.effort : SwarmPhase → Nat
  | .starting => 1
  | .sending _ => 4
  | .selecting => 0
  | .ended => 0

def RecvTask.effort : RecvTask → Nat
  | .receiving => 1
  | .casting _ => 3
  | .ended => 0

def ActorPhase.effort : ActorPhase → Nat
  | .broadcasting _ => 7
  | .idle => 5
  | .shuttingDown => 4
  | .joining => 2
  | .awaiting => 1
  | .stopped => 0
  | .failed => 0

def Msg.effort : Msg → Nat
  | .broadcast _ => 3
  | .subscribe => 1
  | .newEvent _ => 1

@[simp] theorem RecvTask.effort_receiving : RecvTask.receiving.effort = 1 := rfl

@[simp] theorem RecvTask.effort_casting (event : Event) : (RecvTask.casting event).effort = 3 := rfl

@[simp] theorem RecvTask.effort_ended : RecvTask.ended.effort = 0 := rfl

namespace Tasks

/-- The steps that the three processes still take. -/
def effort (t : Tasks) : Nat :=
  t.loop.phase.effort + 3 * t.events.queue.length + t.recvTask.effort +
    (t.mailbox.map Msg.effort).sum + t.actor.effort + t.ctrl.queue.length

/-- What an event from outside adds. -/
def Label.effort : Label → Nat
  | .swarmEvent _ => 4
  | .request _ => 3
  | _ => 0

variable {t next : Tasks}

/-! ## The loop -/

theorem effort_setLoop (t : Tasks) (loop : SwarmLoop) :
    (t.setLoop loop).effort ≤ { t with loop := loop }.effort := by
  rw [setLoop]
  split
  · simp [effort, Mpsc.Channel.dropSender, Mpsc.Channel.dropReceiver]
  · exact Nat.le_refl _

theorem phase_effort_le (flow : Flow) : flow.phase.effort ≤ 4 := by
  cases flow <;> simp [Flow.phase, SwarmPhase.effort]

theorem effort_swarmEvent {event : SwarmEvent} (taken : t.step (.swarmEvent event) = some next) :
    next.effort ≤ t.effort + 4 := by
  obtain ⟨loop, handled, rfl⟩ := Option.map_eq_some_iff.mp taken
  obtain ⟨selecting, rfl⟩ := SwarmLoop.onSwarmEvent_eq_some.mp handled
  have small := phase_effort_le (handleSwarmEvent event t.loop.state).2
  have later := effort_setLoop t { t.loop with
    state := (handleSwarmEvent event t.loop.state).1
    phase := (handleSwarmEvent event t.loop.state).2.phase }
  simp only [effort, selecting] at later ⊢
  omega

theorem effort_listen {listening : Bool} (taken : t.step (.listen listening) = some next) :
    next.effort + 1 ≤ t.effort := by
  obtain ⟨loop, listened, rfl⟩ := Option.map_eq_some_iff.mp taken
  rw [SwarmLoop.listen] at listened
  split at listened
  · rename_i starting
    obtain rfl := Option.some.inj listened
    have spent : (if listening then SwarmPhase.selecting else .ended).effort = 0 := by
      cases listening <;> rfl
    have later := effort_setLoop t
      { t.loop with phase := if listening then .selecting else .ended }
    have before : t.loop.phase.effort = 1 := by
      rw [starting]
      rfl
    simp only [effort, spent] at later ⊢
    omega
  · cases listened

theorem effort_recvCtrl (taken : t.step .recvCtrl = some next) : next.effort + 1 ≤ t.effort := by
  rw [step] at taken
  split at taken
  · rename_i msg ctrl received
    obtain ⟨loop, handled, rfl⟩ := Option.map_eq_some_iff.mp taken
    obtain ⟨selecting, rfl⟩ := SwarmLoop.onCtrlMsg_eq_some.mp handled
    obtain ⟨queue, _⟩ := Mpsc.Channel.recv_eq_some received
    have spent : (handleCtrlMsg msg).2.phase.effort = 0 := by cases msg <;> rfl
    have shorter : t.ctrl.queue.length = ctrl.queue.length + 1 := by
      rw [queue, Option.toList_some, List.singleton_append, List.length_cons]
    have later := effort_setLoop { t with ctrl := ctrl } { t.loop with
      published := t.loop.published ++ (handleCtrlMsg msg).1.toList
      phase := (handleCtrlMsg msg).2.phase }
    simp only [effort, spent] at later ⊢
    omega
  · cases taken

theorem effort_sendEvent (taken : t.step .sendEvent = some next) : next.effort + 1 ≤ t.effort := by
  rw [step] at taken
  split at taken
  · rename_i event sending
    obtain ⟨⟨delivered, events⟩, sent, taken⟩ := Option.bind_eq_some_iff.mp taken
    obtain ⟨loop, handled, rfl⟩ := Option.map_eq_some_iff.mp taken
    obtain ⟨_, _, rfl⟩ := SwarmLoop.onSend_eq_some.mp handled
    obtain ⟨_, _, _, queue⟩ := Mpsc.Channel.send_eq_some sent
    have spent : (Flow.ofSend delivered).phase.effort = 0 := by cases delivered <;> rfl
    have longer : events.queue.length ≤ t.events.queue.length + 1 := by
      rw [queue]
      cases delivered <;> simp
    have before : t.loop.phase.effort = 4 := by
      rw [sending]
      rfl
    refine Nat.le_trans (Nat.add_le_add_right (effort_setLoop _ _) 1) ?_
    simp only [effort, spent]
    omega
  · cases taken

/-! ## The receiving task -/

theorem effort_recvEvent (taken : t.step .recvEvent = some next) : next.effort + 1 ≤ t.effort := by
  rw [step] at taken
  split at taken
  · rename_i receiving
    obtain ⟨⟨got, events⟩, received, rfl⟩ := Option.map_eq_some_iff.mp taken
    obtain ⟨queue, _⟩ := Mpsc.Channel.recv_eq_some received
    have before : t.recvTask.effort = 1 := by
      rw [receiving, RecvTask.effort_receiving]
    cases got with
    | some event =>
        have shorter : t.events.queue.length = events.queue.length + 1 := by
          rw [queue, Option.toList_some, List.singleton_append, List.length_cons]
        simp only [onRecv, effort, RecvTask.effort_casting]
        omega
    | none =>
        simp only [onRecv, endRecvTask, effort, RecvTask.effort_ended, Mpsc.Channel.dropReceiver,
          List.length_nil]
        omega
  · cases taken

theorem effort_cast {accepted : Bool} (taken : t.step (.cast accepted) = some next) :
    next.effort + 1 ≤ t.effort := by
  rw [step] at taken
  split at taken
  · rename_i event casting
    have before : t.recvTask.effort = 3 := by
      rw [casting, RecvTask.effort_casting]
    split at taken
    · obtain rfl := Option.some.inj taken
      cases accepted with
      | true =>
          have new : (Msg.newEvent event).effort = 1 := rfl
          simp only [if_true, post, effort, RecvTask.effort_receiving, List.map_append,
            List.map_cons, List.map_nil, List.sum_append, List.sum_cons, List.sum_nil, new]
          omega
      | false =>
          simp only [Bool.false_eq_true, if_false, endRecvTask, effort, RecvTask.effort_ended,
            Mpsc.Channel.dropReceiver, List.length_nil]
          omega
    · cases taken
  · cases taken

/-! ## The actor -/

/-- What a message leaves to do is part of its own effort. -/
theorem afterHandle_effort (msg : Msg) (state : ActorState) :
    (ActorPhase.afterHandle (handle msg state).2).effort + 1 ≤ msg.effort + 5 := by
  cases state with
  | stopped => cases msg <;> simp [handle, ActorPhase.afterHandle, ActorPhase.effort, Msg.effort]
  | running peers outputPort =>
      cases msg with
      | subscribe | newEvent =>
          simp [handle, ActorPhase.afterHandle, ActorPhase.effort, Msg.effort]
      | broadcast batch =>
          simp only [handle]
          split <;> simp [ActorPhase.afterHandle, ActorPhase.effort, Msg.effort]

theorem effort_handle (taken : t.step .handle = some next) : next.effort + 1 ≤ t.effort := by
  rw [step] at taken
  split at taken
  · rename_i msg rest idle mailbox
    split at taken
    · cases taken
    · obtain rfl := Option.some.inj taken
      have left := afterHandle_effort msg t.state
      have before : t.actor.effort = 5 := by
        rw [idle]
        rfl
      change effort { t with
        state := (Network.handle msg t.state).1
        mailbox := rest
        actor := ActorPhase.afterHandle (Network.handle msg t.state).2 } + 1 ≤ t.effort
      simp only [effort, mailbox, List.map_cons, List.sum_cons]
      omega
  · cases taken

/-- A send of the actor takes one step of it and leaves one for the loop. -/
theorem effort_sendCtrl {msg : CtrlMsg} {phase : ActorPhase}
    (less : phase.effort + 2 ≤ t.actor.effort) (taken : t.sendCtrl msg phase = some next) :
    next.effort + 1 ≤ t.effort := by
  obtain ⟨⟨delivered, ctrl⟩, sent, rfl⟩ := Option.map_eq_some_iff.mp taken
  obtain ⟨_, _, _, queue⟩ := Mpsc.Channel.send_eq_some sent
  cases delivered with
  | true =>
      have longer : ctrl.queue.length = t.ctrl.queue.length + 1 := by
        rw [queue]
        simp
      simp only [if_true, effort]
      omega
  | false =>
      have failed : ActorPhase.failed.effort = 0 := rfl
      simp only [Bool.false_eq_true, if_false, dropCtrlHandle, effort, Mpsc.Channel.dropSender]
      omega

/-- Every step of the three processes works something off, and only events from
    outside bring work in. -/
theorem effort_step {a : Label} (taken : t.step a = some next) :
    next.effort + a.internal.toNat ≤ t.effort + a.effort := by
  cases a with
  | swarmEvent event => exact effort_swarmEvent taken
  | request msg =>
      obtain rfl := Option.some.inj taken
      have small : msg.effort ≤ 3 := by cases msg <;> simp [Msg.effort]
      simp only [Label.internal, Label.effort, Bool.toNat_false]
      split
      · omega
      · simp only [post, effort, List.map_append, List.map_cons, List.map_nil, List.sum_append,
          List.sum_cons, List.sum_nil]
        omega
  | requestStop =>
      obtain rfl := Option.some.inj taken
      exact Nat.le_refl _
  | listen listening => exact effort_listen taken
  | recvCtrl => exact effort_recvCtrl taken
  | sendEvent => exact effort_sendEvent taken
  | recvEvent => exact effort_recvEvent taken
  | cast accepted => exact effort_cast taken
  | handle => exact effort_handle taken
  | sendBroadcast =>
      rw [step] at taken
      split at taken
      · rename_i msg broadcasting
        exact effort_sendCtrl (by rw [broadcasting]; exact Nat.le_refl _) taken
      · cases taken
  | sendShutdown =>
      rw [step] at taken
      split at taken
      · rename_i shuttingDown
        exact effort_sendCtrl (by rw [shuttingDown]; decide) taken
      · cases taken
  | stop | join | awaitRecvTask =>
      rw [step] at taken
      split at taken
      · rename_i phase
        split at taken
        · obtain rfl := Option.some.inj taken
          simp only [dropCtrlHandle, effort, phase, ActorPhase.effort, Mpsc.Channel.dropSender,
            Label.internal, Label.effort, Bool.toNat_true]
          omega
        · cases taken
      · cases taken

/-- After a request to stop something can go on as long as the actor is there. -/
theorem canStep_of_alive (sound : Sound t) (requested : t.stopRequested = true)
    (alive : t.actor.dead = false) : t.CanStep := by
  by_cases ended : t.loop.phase = .ended ∧ t.recvTask = .ended
  · have closed : t.ctrl.receiver = false := sound.ctrlReceiver.mpr ended.1
    have fails : ∀ msg : CtrlMsg, t.ctrl.send msg = some (false, t.ctrl) := by
      intro msg
      simp [Mpsc.Channel.send, closed]
    cases phase : t.actor with
    | idle => exact ⟨.stop, rfl, by simp [system, step, phase, requested]⟩
    | broadcasting msg =>
        exact ⟨.sendBroadcast, rfl, by simp [system, step, phase, sendCtrl, fails]⟩
    | shuttingDown => exact ⟨.sendShutdown, rfl, by simp [system, step, phase, sendCtrl, fails]⟩
    | joining => exact ⟨.join, rfl, by simp [system, step, phase, ended.1]⟩
    | awaiting => exact ⟨.awaitRecvTask, rfl, by simp [system, step, phase, ended.2]⟩
    | stopped | failed =>
        rw [phase] at alive
        cases alive
  · exact canStep_of_stopRequested sound requested ended

/-- The three processes take a bounded number of steps for what comes from
    outside, and when none of them can go on after a request to stop, the actor
    is gone and both tasks have ended. -/
theorem stop_completes (capacities : Capacities) (labels : List Label) (t : Tasks)
    (ran : system.run (start capacities) labels = some t) :
    labels.countP Label.internal + t.effort ≤ 7 + (labels.map Label.effort).sum ∧
      (t.stopRequested = true → (∀ a, a.internal = true → t.step a = none) →
        t.actor.dead = true ∧ t.loop.phase = .ended ∧ t.recvTask = .ended) := by
  have sound : Sound t :=
    system.run_induction (fun _ _ _ sound taken => step_sound sound taken)
      (sound_start capacities) ran
  constructor
  · have bounded := system.run_bounded (fun a => a.internal.toNat) Label.effort
      (fun _ _ _ (_ : True) taken => ⟨trivial, effort_step taken⟩) trivial ran
    rw [Transition.sum_map_toNat] at bounded
    have initial : (start capacities).effort = 7 := rfl
    omega
  · intro requested stuck
    have resting : ¬ t.CanStep := by
      rintro ⟨a, internal, enabled⟩
      change (t.step a).isSome = true at enabled
      rw [stuck a internal] at enabled
      cases enabled
    have dead : t.actor.dead = true := by
      by_contra alive
      exact resting (canStep_of_alive sound requested (Bool.eq_false_iff.mpr alive))
    have ended : t.loop.phase = .ended ∧ t.recvTask = .ended := by
      by_contra unfinished
      exact resting (canStep_of_stopRequested sound requested unfinished)
    exact ⟨dead, ended⟩

/-- A stop while a batch is still in the control channel. -/
def stoppedRun : List Label :=
  [.listen true, .request (.broadcast ⟨{ typeUrl := "", value := [] }⟩), .handle, .sendBroadcast,
    .requestStop, .stop, .recvCtrl, .sendShutdown, .recvCtrl, .join, .recvEvent, .awaitRecvTask]

theorem stoppedRun_completes :
    ∃ t, system.run (start Capacities.default) stoppedRun = some t ∧
      10 + t.effort ≤ 7 + 3 ∧ t.loop.published.length = 1 ∧
      t.actor.dead = true ∧ t.loop.phase = .ended ∧ t.recvTask = .ended := by
  obtain ⟨t, ran, requested, published, stuck⟩ :
      ∃ t, system.run (start Capacities.default) stoppedRun = some t ∧ t.stopRequested = true ∧
        t.loop.published.length = 1 ∧ ∀ a, a.internal = true → t.step a = none := by
    refine ⟨_, rfl, rfl, rfl, ?_⟩
    intro a internal
    cases a with
    | swarmEvent | request | requestStop => cases internal
    | listen | recvCtrl | sendEvent | recvEvent | cast | handle | sendBroadcast | stop
      | sendShutdown | join | awaitRecvTask => rfl
  have completes := stop_completes Capacities.default stoppedRun t ran
  exact ⟨t, ran, completes.1, published, completes.2 requested stuck⟩

end Tasks

end MalachiteMempool.Network
