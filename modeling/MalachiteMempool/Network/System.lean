import MalachiteMempool.Lib.Mpsc
import MalachiteMempool.Network.Actor

/-! # The network actor and its two tasks

The actor owns two tasks: the swarm loop, which it reaches through the control
channel, and `recv_task`, which takes the loop's events from the event channel
and casts them to the actor.  Both channels are bounded, the actor's mailbox is
not.  When the actor is stopped, `post_stop` sends `Shutdown`, waits for the
loop and then waits for `recv_task`.

Each process takes its next step at any time, so a list of labels is an
interleaving.  A step that would have to wait is not enabled.
-/

namespace MalachiteMempool.Network

/-- The capacities of the two channels; `spawn` uses 32 for both. -/
structure Capacities where
  event : Nat
  ctrl : Nat
  eventPositive : 0 < event
  ctrlPositive : 0 < ctrl

def Capacities.default : Capacities where
  event := 32
  ctrl := 32
  eventPositive := by decide
  ctrlPositive := by decide

inductive ActorPhase where
  /-- Between two messages. -/
  | idle
  /-- `handle` waits in `ctrl_handle.broadcast`. -/
  | broadcasting (msg : CtrlMsg)
  /-- `post_stop` waits in `ctrl_handle.shutdown`. -/
  | shuttingDown
  /-- `post_stop` waits for the swarm loop. -/
  | joining
  /-- `post_stop` waits for `recv_task`. -/
  | awaiting
  | stopped
  /-- `handle` or `post_stop` returned an error; `post_stop` does not follow one. -/
  | failed
  deriving DecidableEq, Repr

namespace ActorPhase

def dead : ActorPhase → Bool
  | stopped => true
  | failed => true
  | _ => false

/-- `handle` is over, or waits for the control message to be sent. -/
def afterHandle : Option CtrlMsg → ActorPhase
  | some msg => broadcasting msg
  | none => idle

/-- Whether a cast may be accepted or refused.  While `post_stop` runs this is
    up to the actor runtime. -/
def mayAnswer (accepted : Bool) : ActorPhase → Bool
  | idle => accepted
  | broadcasting _ => accepted
  | stopped => !accepted
  | failed => !accepted
  | _ => true

end ActorPhase

inductive RecvTask where
  | receiving
  | casting (event : Event)
  | ended
  deriving DecidableEq, Repr

structure Tasks where
  loop : SwarmLoop
  events : Mpsc.Channel Event
  ctrl : Mpsc.Channel CtrlMsg
  recvTask : RecvTask
  actor : ActorPhase
  state : ActorState
  mailbox : List Msg
  stopRequested : Bool

namespace Tasks

inductive Label where
  /-- The swarm has an event for the loop. -/
  | swarmEvent (event : SwarmEvent)
  /-- Somebody casts a message to the actor. -/
  | request (msg : Msg)
  | requestStop
  /-- The steps of the loop. -/
  | listen (listening : Bool)
  | recvCtrl
  | sendEvent
  /-- The steps of `recv_task`. -/
  | recvEvent
  | cast (accepted : Bool)
  /-- The steps of the actor. -/
  | handle
  | sendBroadcast
  | stop
  | sendShutdown
  | join
  | awaitRecvTask

/-- The steps that the three processes take by themselves. -/
def Label.internal : Label → Bool
  | .swarmEvent _ => false
  | .request _ => false
  | .requestStop => false
  | _ => true

def start (capacities : Capacities) : Tasks where
  loop := .start
  events := .empty capacities.event capacities.eventPositive
  ctrl := .empty capacities.ctrl capacities.ctrlPositive
  recvTask := .receiving
  actor := .idle
  state := .initial
  mailbox := []
  stopRequested := false

/-- The loop goes on; when it has ended its ends of the channels are dropped. -/
def setLoop (t : Tasks) (loop : SwarmLoop) : Tasks :=
  if loop.phase = .ended then
    { t with loop := loop, events := t.events.dropSender, ctrl := t.ctrl.dropReceiver }
  else { t with loop := loop }

def endRecvTask (t : Tasks) : Tasks :=
  { t with recvTask := .ended, events := t.events.dropReceiver }

/-- One turn of `while let Some(event) = recv_handle.recv().await`. -/
def onRecv (t : Tasks) : Option Event → Tasks
  | some event => { t with recvTask := .casting event }
  | none => t.endRecvTask

/-- The actor goes on without the control handle. -/
def dropCtrlHandle (t : Tasks) (phase : ActorPhase) : Tasks :=
  { t with actor := phase, ctrl := t.ctrl.dropSender }

def post (t : Tasks) (msg : Msg) : Tasks := { t with mailbox := t.mailbox ++ [msg] }

/-- `tx_ctrl.send(msg).await` of the actor, which then is in the given phase. -/
def sendCtrl (t : Tasks) (msg : CtrlMsg) (phase : ActorPhase) : Option Tasks :=
  (t.ctrl.send msg).map (fun sent =>
    if sent.1 then { t with ctrl := sent.2, actor := phase } else t.dropCtrlHandle .failed)

def step (t : Tasks) : Label → Option Tasks
  | .swarmEvent event => (t.loop.onSwarmEvent event).map t.setLoop
  | .request msg => some (if t.actor.dead then t else t.post msg)
  | .requestStop => some { t with stopRequested := true }
  | .listen listening => (t.loop.listen listening).map t.setLoop
  | .recvCtrl =>
      -- a closed control channel only disables this branch of `select!`
      match t.ctrl.recv with
      | some (some msg, ctrl) => (t.loop.onCtrlMsg msg).map (fun loop =>
          setLoop { t with ctrl := ctrl } loop)
      | _ => none
  | .sendEvent =>
      match t.loop.phase with
      | .sending event => (t.events.send event).bind (fun sent =>
          (t.loop.onSend sent.1).map (fun loop => setLoop { t with events := sent.2 } loop))
      | _ => none
  | .recvEvent =>
      match t.recvTask with
      | .receiving => t.events.recv.map (fun received =>
          onRecv { t with events := received.2 } received.1)
      | _ => none
  | .cast accepted =>
      match t.recvTask with
      | .casting event =>
          if t.actor.mayAnswer accepted then
            some (if accepted then { t.post (.newEvent event) with recvTask := .receiving }
              else t.endRecvTask)
          else none
      | _ => none
  | .handle =>
      match t.actor, t.mailbox with
      | .idle, msg :: rest =>
          -- a request to stop goes before the messages that wait
          if t.stopRequested then none
          else
            let (state, ctrl) := Network.handle msg t.state
            some { t with
              state := state
              mailbox := rest
              actor := ActorPhase.afterHandle ctrl }
      | _, _ => none
  | .sendBroadcast =>
      match t.actor with
      | .broadcasting msg => t.sendCtrl msg .idle
      | _ => none
  | .stop =>
      match t.actor with
      | .idle =>
          if t.stopRequested then some { t with actor := .shuttingDown } else none
      | _ => none
  | .sendShutdown =>
      match t.actor with
      | .shuttingDown => t.sendCtrl .shutdown .joining
      | _ => none
  | .join =>
      match t.actor with
      | .joining => if t.loop.phase = .ended then some (t.dropCtrlHandle .awaiting) else none
      | _ => none
  | .awaitRecvTask =>
      match t.actor with
      | .awaiting =>
          -- `post_stop` has taken the state and drops the rest of it when it returns
          if t.recvTask = .ended then some { t with actor := .stopped, state := .stopped } else none
      | _ => none

def system : Transition.System Tasks Label where
  step := step

/-! ## The loop in it

Seen from the loop, the rest of the system is peers, an owner and a receiver of
events, so what holds among any of these holds here.
-/

def exposed (t : Tasks) : Exposed := { loop := t.loop, receiverOpen := t.events.receiver }

/-- The event that a gossip message of this label stands for. -/
def Label.gossiped : Label → Option Event
  | .swarmEvent event => event.gossiped
  | _ => none

theorem setLoop_exposed (t : Tasks) (loop : SwarmLoop) :
    (t.setLoop loop).exposed = { loop := loop, receiverOpen := t.events.receiver } := by
  rw [setLoop]
  split <;> rfl

theorem sendCtrl_exposed {t next : Tasks} {msg : CtrlMsg} {phase : ActorPhase}
    (sent : t.sendCtrl msg phase = some next) : next.exposed = t.exposed := by
  obtain ⟨⟨delivered, ctrl⟩, _, rfl⟩ := Option.map_eq_some_iff.mp sent
  cases delivered <;> rfl

/-- How a step of the system looks to the loop: it is one of the loop's own, or
    nothing happens. -/
def Looks (t next : Tasks) (gossiped : Option Event) : Prop :=
  (next.exposed = t.exposed ∧ gossiped = none) ∨
    ∃ label, Exposed.system.step t.exposed label = some next.exposed ∧ label.gossiped = gossiped

theorem swarmEvent_looks {t next : Tasks} {event : SwarmEvent}
    (taken : t.step (.swarmEvent event) = some next) : Looks t next event.gossiped := by
  obtain ⟨loop, handled, rfl⟩ := Option.map_eq_some_iff.mp taken
  refine .inr ⟨.event event, ?_, rfl⟩
  rw [setLoop_exposed]
  exact Option.map_eq_some_iff.mpr ⟨loop, handled, rfl⟩

theorem recvCtrl_looks {t next : Tasks} (taken : t.step .recvCtrl = some next) :
    Looks t next none := by
  rw [step] at taken
  split at taken
  · rename_i msg ctrl _
    obtain ⟨loop, handled, rfl⟩ := Option.map_eq_some_iff.mp taken
    refine .inr ⟨.ctrl msg, ?_, rfl⟩
    rw [setLoop_exposed]
    exact Option.map_eq_some_iff.mpr ⟨loop, handled, rfl⟩
  · cases taken

theorem sendEvent_looks {t next : Tasks} (taken : t.step .sendEvent = some next) :
    Looks t next none := by
  rw [step] at taken
  split at taken
  · obtain ⟨⟨delivered, events⟩, sent, taken⟩ := Option.bind_eq_some_iff.mp taken
    obtain ⟨loop, handled, rfl⟩ := Option.map_eq_some_iff.mp taken
    obtain ⟨rfl, _, receiver, _⟩ := Mpsc.Channel.send_eq_some sent
    refine .inr ⟨.send, ?_, rfl⟩
    rw [setLoop_exposed, receiver]
    exact Option.map_eq_some_iff.mpr ⟨loop, handled, rfl⟩
  · cases taken

theorem recvEvent_looks {t next : Tasks} (taken : t.step .recvEvent = some next) :
    Looks t next none := by
  rw [step] at taken
  split at taken
  · obtain ⟨⟨got, events⟩, received, rfl⟩ := Option.map_eq_some_iff.mp taken
    obtain ⟨_, _, receiver⟩ := Mpsc.Channel.recv_eq_some received
    cases got with
    | some event =>
        refine .inl ⟨?_, rfl⟩
        rw [exposed, exposed, ← receiver]
        rfl
    | none => exact .inr ⟨.dropReceiver, rfl, rfl⟩
  · cases taken

theorem cast_looks {t next : Tasks} {accepted : Bool}
    (taken : t.step (.cast accepted) = some next) : Looks t next none := by
  rw [step] at taken
  split at taken
  · split at taken
    · obtain rfl := Option.some.inj taken
      cases accepted with
      | true => exact .inl ⟨rfl, rfl⟩
      | false => exact .inr ⟨.dropReceiver, rfl, rfl⟩
    · cases taken
  · cases taken

/-- Behind `listen_on` nothing but the steps of the loop concerns it. -/
theorem step_looks {t next : Tasks} {a : Label} (entered : ∀ listening, a ≠ .listen listening)
    (taken : system.step t a = some next) : Looks t next a.gossiped := by
  change t.step a = some next at taken
  cases a with
  | swarmEvent event => exact swarmEvent_looks taken
  | recvCtrl => exact recvCtrl_looks taken
  | sendEvent => exact sendEvent_looks taken
  | recvEvent => exact recvEvent_looks taken
  | cast accepted => exact cast_looks taken
  | listen listening => exact absurd rfl (entered listening)
  | request msg =>
      obtain rfl := Option.some.inj taken
      refine .inl ⟨?_, rfl⟩
      split <;> rfl
  | requestStop =>
      obtain rfl := Option.some.inj taken
      exact .inl ⟨rfl, rfl⟩
  | sendBroadcast | sendShutdown =>
      rw [step] at taken
      split at taken
      · exact .inl ⟨sendCtrl_exposed taken, rfl⟩
      · cases taken
  | handle =>
      rw [step] at taken
      split at taken
      · split at taken
        · cases taken
        · obtain rfl := Option.some.inj taken
          exact .inl ⟨rfl, rfl⟩
      · cases taken
  | stop | join | awaitRecvTask =>
      rw [step] at taken
      split at taken
      · split at taken
        · obtain rfl := Option.some.inj taken
          exact .inl ⟨rfl, rfl⟩
        · cases taken
      · cases taken

theorem listen_messages {loop next : SwarmLoop} {listening : Bool}
    (listened : loop.listen listening = some next) :
    loop.phase ≠ .ended ∧ next.messages = loop.messages ∧ next.published = loop.published := by
  rw [SwarmLoop.listen] at listened
  split at listened
  · rename_i starting
    obtain rfl := Option.some.inj listened
    refine ⟨by simp [starting], ?_, rfl⟩
    cases listening <;> simp [SwarmLoop.messages, starting, SwarmPhase.pending]
  · cases listened

theorem step_forwards {t next : Tasks} {a : Label} (taken : system.step t a = some next)
    (running : next.loop.phase ≠ .ended) :
    t.loop.phase ≠ .ended ∧ next.loop.messages = t.loop.messages ++ a.gossiped.toList := by
  by_cases isListen : ∃ listening, a = .listen listening
  · obtain ⟨listening, rfl⟩ := isListen
    obtain ⟨loop, listened, rfl⟩ := Option.map_eq_some_iff.mp taken
    obtain ⟨running, same, _⟩ := listen_messages listened
    have isLoop : (t.setLoop loop).loop = loop := congrArg Exposed.loop (setLoop_exposed t loop)
    refine ⟨running, ?_⟩
    rw [isLoop, same]
    exact (List.append_nil _).symm
  · push Not at isListen
    rcases step_looks isListen taken with ⟨same, quiet⟩ | ⟨label, taken, gossiped⟩
    · have isLoop : next.loop = t.loop := congrArg Exposed.loop same
      rw [isLoop] at running ⊢
      rw [quiet, Option.toList_none, List.append_nil]
      exact ⟨running, rfl⟩
    · rw [← gossiped]
      exact Exposed.step_messages taken running

theorem step_published {t next : Tasks} {a : Label} (taken : t.step a = some next) :
    t.loop.published <+: next.loop.published := by
  by_cases isListen : ∃ listening, a = .listen listening
  · obtain ⟨listening, rfl⟩ := isListen
    obtain ⟨loop, listened, rfl⟩ := Option.map_eq_some_iff.mp taken
    obtain ⟨_, _, same⟩ := listen_messages listened
    have isLoop : (t.setLoop loop).loop = loop := congrArg Exposed.loop (setLoop_exposed t loop)
    rw [isLoop, same]
  · push Not at isListen
    rcases step_looks isListen taken with ⟨same, _⟩ | ⟨label, taken, _⟩
    · have isLoop : next.loop = t.loop := congrArg Exposed.loop same
      rw [isLoop]
    · exact Exposed.step_published taken

/-- In the whole system, too, what the loop forwards of its peers' messages is
    exactly the acceptable ones. -/
theorem tasks_forward_exactly {s t : Tasks} {labels : List Label}
    (ran : system.run s labels = some t) (running : t.loop.phase ≠ .ended) :
    s.loop.phase ≠ .ended ∧
      t.loop.messages = s.loop.messages ++ labels.filterMap Label.gossiped :=
  system.run_collects (fun _ _ _ taken running => step_forwards taken running) ran running

end Tasks

end MalachiteMempool.Network
