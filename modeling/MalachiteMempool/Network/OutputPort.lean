import MalachiteMempool.Lib.Ring
import MalachiteMempool.Lib.Transition
import MalachiteMempool.Host.App

/-! # Output ports and their forwarding tasks

`libp2p-network/src/output_port.rs`.  Every subscription is a task that receives
from the ring of the port, converts what it gets and casts it to its actor.  The
port keeps the handles of the tasks; it forgets the dead ones at the next
subscription and aborts all of them when it is dropped.

A converter may look at the reference count of a message, and it may panic: the
app unwraps the `Arc` of an event.  Between receiving a message and converting
it other tasks go on, and so they do while a panic unwinds and until the
receiver of the task and then the task itself are gone.
-/

namespace MalachiteMempool.Forwarding

open Broadcast

/-- Identity of the actor behind an `ActorRef`. -/
abbrev ActorId := Nat

inductive Conversion (β : Type) where
  | forward (message : β)
  | skip
  | panic
  deriving DecidableEq, Repr

/-- Where a forwarding task is. -/
inductive Phase (α : Type) where
  /-- At `port.recv().await`. -/
  | waiting
  /-- It has received a message and converts it next. -/
  | holding (number : Nat) (message : α)
  /-- The converter has panicked and the message is not dropped yet. -/
  | unwinding (number : Nat)
  /-- The loop is left and the receiver is not dropped yet. -/
  | closing
  /-- The receiver is dropped and the handle does not say so yet. -/
  | closed
  | finished
  deriving DecidableEq, Repr

namespace Phase

variable {α : Type}

/-- The message it has a reference to. -/
def number : Phase α → Option Nat
  | .holding number _ => some number
  | .unwinding number => some number
  | _ => none

/-- The receiver is not dropped. -/
def live : Phase α → Bool
  | .closed => false
  | .finished => false
  | _ => true

/-- The loop goes on. -/
def running : Phase α → Bool
  | .waiting => true
  | .holding _ _ => true
  | _ => false

/-- The next phase of a task that has left the loop. -/
def wind : Phase α → Option (Phase α)
  | .unwinding _ => some .closing
  | .closing => some .closed
  | .closed => some .finished
  | _ => none

end Phase

structure OutputPortSubscription (α β : Type) where
  receiver : ActorId
  /-- The converter is told the reference count of the message. -/
  converter : Nat → α → Conversion β
  cursor : Cursor
  phase : Phase α
  aborted : Bool

namespace OutputPortSubscription

variable {α β : Type}

/-- `is_dead`. -/
def isDead (task : OutputPortSubscription α β) : Bool :=
  match task.phase with
  | .finished => true
  | _ => false

/-- `stop`. -/
def stop (task : OutputPortSubscription α β) : OutputPortSubscription α β :=
  { task with aborted := true }

/-- `new`: the task starts at the receive of its loop. -/
def new (cursor : Cursor) (converter : Nat → α → Conversion β) (receiver : ActorId) :
    OutputPortSubscription α β where
  receiver := receiver
  converter := converter
  cursor := cursor
  phase := .waiting
  aborted := false

/-- `port.recv()`: a lag is only logged, and a closed channel ends the loop. -/
def receive (ring : Broadcast.Ring α) (dropped : Bool) (task : OutputPortSubscription α β) :
    Option (OutputPortSubscription α β) :=
  match task.phase with
  | .waiting =>
      match ring.recv task.cursor with
      | some (some (number, message), cursor) =>
          some { task with cursor := cursor, phase := .holding number message }
      | some (none, cursor) => some { task with cursor := cursor }
      | none => if dropped then some { task with phase := .closing } else none
  | _ => none

/-- `converter(msg)` and `receiver.cast(new_msg)`: the new state, and the
    message that was cast. -/
def convert (strong : Nat → Nat) (stopped : Bool) (task : OutputPortSubscription α β) :
    Option (OutputPortSubscription α β × Option (Nat × β)) :=
  match task.phase with
  | .holding number message =>
      match task.converter (strong number) message with
      | .forward newMsg =>
          -- kill the subscription process, as the forwarding agent is stopped
          if stopped then some ({ task with phase := .closing }, none)
          else some ({ task with phase := .waiting }, some (number, newMsg))
      | .skip => some ({ task with phase := .waiting }, none)
      | .panic => some ({ task with phase := .unwinding number }, none)
  | _ => none

/-- An aborted task ends where it waits. -/
def cancel (task : OutputPortSubscription α β) : Option (OutputPortSubscription α β) :=
  match task.phase with
  | .waiting => if task.aborted then some { task with phase := .closing } else none
  | _ => none

end OutputPortSubscription

/-- A message that a task has cast to its actor. -/
structure Delivery (β : Type) where
  task : Nat
  number : Nat
  message : β
  deriving DecidableEq, Repr

structure Port (α β : Type) where
  ring : Broadcast.Ring α
  /-- All tasks that were ever spawned. -/
  tasks : List (OutputPortSubscription α β)
  /-- The tasks whose handles the port keeps. -/
  subscriptions : List Nat
  dropped : Bool
  /-- The actors that take no more casts. -/
  stopped : List ActorId
  delivered : List (Delivery β)

inductive Label (α β : Type) where
  | subscribe (receiver : ActorId) (converter : Nat → α → Conversion β)
  | send (msg : α)
  | drop
  /-- An actor stops. -/
  | stop (receiver : ActorId)
  | receive (task : Nat)
  | convert (task : Nat)
  /-- A task that has left its loop goes on ending. -/
  | wind (task : Nat)
  /-- An aborted task is cancelled. -/
  | cancel (task : Nat)

namespace Port

variable {α β : Type}

/-- `with_capacity`, for any size of the ring. -/
def withRing (size : Nat) : Port α β where
  ring := { size := size }
  tasks := []
  subscriptions := []
  dropped := false
  stopped := []
  delivered := []

def withCapacity (capacity : Nat) : Port α β := withRing (ringSize capacity)

/-- `receiver_count`. -/
def receiverCount (port : Port α β) : Nat := port.tasks.countP (fun task => task.phase.live)

/-- The ring has the message until everybody has read it or it is overwritten. -/
def kept (port : Port α β) (number : Nat) : Bool :=
  decide (port.ring.oldest ≤ number) &&
    port.tasks.any (fun task => task.phase.live && decide (task.cursor.next ≤ number))

/-- `Arc::strong_count` of a message that a task has received. -/
def strong (port : Port α β) (number : Nat) : Nat :=
  port.tasks.countP (fun task => task.phase.number == some number) +
    if port.kept number then 1 else 0

def subscribe (port : Port α β) (receiver : ActorId) (converter : Nat → α → Conversion β) :
    Port α β :=
  { port with
    tasks := port.tasks ++ [.new port.ring.subscribe converter receiver]
    -- filter out dead subscriptions, since they're no longer valid
    subscriptions := port.subscriptions.filter (fun i =>
      port.tasks[i]?.any (fun task => !task.isDead)) ++ [port.tasks.length] }

def send (port : Port α β) (msg : α) : Port α β :=
  if 0 < port.receiverCount then { port with ring := port.ring.send msg } else port

/-- `drop`: every task whose handle is kept is aborted, and the channel closes. -/
def drop (port : Port α β) : Port α β :=
  { port with
    tasks := port.tasks.mapIdx (fun i task => if i ∈ port.subscriptions then task.stop else task)
    subscriptions := []
    dropped := true }

/-- A task has moved, and may have cast a message. -/
def moved (port : Port α β) (i : Nat) (task : OutputPortSubscription α β)
    (out : Option (Nat × β)) : Port α β :=
  { port with
    tasks := port.tasks.set i task
    delivered := port.delivered ++ (out.map (fun cast => ⟨i, cast.1, cast.2⟩)).toList }

/-- The port is used by its owner as long as it is not dropped. -/
def step (port : Port α β) : Label α β → Option (Port α β)
  | .subscribe receiver converter =>
      if port.dropped then none else some (port.subscribe receiver converter)
  | .send msg => if port.dropped then none else some (port.send msg)
  | .drop => if port.dropped then none else some port.drop
  | .stop receiver => some { port with stopped := receiver :: port.stopped }
  | .receive i =>
      port.tasks[i]?.bind (fun task =>
        (task.receive port.ring port.dropped).map (fun task' => port.moved i task' none))
  | .convert i =>
      port.tasks[i]?.bind (fun task =>
        (task.convert port.strong (decide (task.receiver ∈ port.stopped))).map (fun converted =>
          port.moved i converted.1 converted.2))
  | .wind i =>
      port.tasks[i]?.bind (fun task =>
        task.phase.wind.map (fun phase => port.moved i { task with phase := phase } none))
  | .cancel i =>
      port.tasks[i]?.bind (fun task => task.cancel.map (fun task' => port.moved i task' none))

def system : Transition.System (Port α β) (Label α β) where
  step := step

end Port

end MalachiteMempool.Forwarding

namespace MalachiteMempool

open Forwarding

/-- `From<Arc<MempoolEvent>> for Msg` of the app: it panics on a shared event. -/
def Host.AppMsg.fromEvent (strong : Nat) (event : Event) : Conversion Host.AppMsg :=
  if strong = 1 then .forward (.mempoolEvent event) else .panic

end MalachiteMempool
