import MalachiteMempool.Network.OutputPort

/-! # What subscribers of an output port get

Whatever the tasks and the owner of the port do, each task reads the messages
sent since its subscription in order and each of them at most once.  It loses
those that the ring overwrites, no others, and it is told how many.  As long as
it runs, it has cast every message it has read, unless its converter skipped it.

Dropping the port ends every task, after a bounded number of steps.
-/

namespace MalachiteMempool.Forwarding

open Broadcast

variable {α β : Type}

/-! ## Steps -/

/-- A task leaves its loop, or has left it and goes on ending. -/
inductive Phase.Ends : Phase α → Phase α → Prop where
  | waiting : Ends .waiting .closing
  | holding (number : Nat) (message : α) : Ends (.holding number message) .closing
  | unwinding (number : Nat) : Ends (.unwinding number) .closing
  | closing : Ends .closing .closed
  | closed : Ends .closed .finished

theorem Phase.Ends.of_wind {phase next : Phase α} (h : phase.wind = some next) :
    phase.Ends next := by
  cases phase with
  | waiting | holding | finished => cases h
  | unwinding number =>
      cases h
      exact .unwinding number
  | closing =>
      cases h
      exact .closing
  | closed =>
      cases h
      exact .closed

/-- Everything that a task can do in one step, with the message it casts. -/
inductive Moves (port : Port α β) (task : OutputPortSubscription α β) :
    OutputPortSubscription α β → Option (Nat × β) → Prop where
  | reads {number : Nat} {message : α} {cursor : Cursor} (waits : task.phase = .waiting)
      (read : port.ring.recv task.cursor = some (some (number, message), cursor)) :
      Moves port task { task with cursor := cursor, phase := .holding number message } none
  | lags {cursor : Cursor} (waits : task.phase = .waiting)
      (read : port.ring.recv task.cursor = some (none, cursor)) :
      Moves port task { task with cursor := cursor } none
  | forwards {number : Nat} {message : α} {newMsg : β}
      (holds : task.phase = .holding number message)
      (converted : task.converter (port.strong number) message = .forward newMsg) :
      Moves port task { task with phase := .waiting } (some (number, newMsg))
  | skips {number : Nat} {message : α} (holds : task.phase = .holding number message)
      (converted : task.converter (port.strong number) message = .skip) :
      Moves port task { task with phase := .waiting } none
  | panics {number : Nat} {message : α} (holds : task.phase = .holding number message)
      (converted : task.converter (port.strong number) message = .panic) :
      Moves port task { task with phase := .unwinding number } none
  | ends {phase : Phase α} (steps : task.phase.Ends phase) :
      Moves port task { task with phase := phase } none

theorem moves_of_receive {port : Port α β} {task task' : OutputPortSubscription α β}
    (h : task.receive port.ring port.dropped = some task') : Moves port task task' none := by
  unfold OutputPortSubscription.receive at h
  split at h
  · rename_i waits
    split at h
    · rename_i number message cursor read
      obtain rfl := Option.some.inj h
      exact .reads waits read
    · rename_i cursor read
      obtain rfl := Option.some.inj h
      exact .lags waits read
    · split at h
      · obtain rfl := Option.some.inj h
        exact .ends (waits ▸ .waiting)
      · cases h
  · cases h

theorem moves_of_convert {port : Port α β} {task task' : OutputPortSubscription α β}
    {stopped : Bool} {out : Option (Nat × β)}
    (h : task.convert port.strong stopped = some (task', out)) : Moves port task task' out := by
  unfold OutputPortSubscription.convert at h
  split at h
  · rename_i number message holds
    split at h
    · rename_i newMsg converted
      split at h
      · obtain ⟨rfl, rfl⟩ := Prod.mk.inj (Option.some.inj h)
        exact .ends (holds ▸ .holding number message)
      · obtain ⟨rfl, rfl⟩ := Prod.mk.inj (Option.some.inj h)
        exact .forwards holds converted
    · rename_i converted
      obtain ⟨rfl, rfl⟩ := Prod.mk.inj (Option.some.inj h)
      exact .skips holds converted
    · rename_i converted
      obtain ⟨rfl, rfl⟩ := Prod.mk.inj (Option.some.inj h)
      exact .panics holds converted
  · cases h

theorem moves_of_cancel {port : Port α β} {task task' : OutputPortSubscription α β}
    (h : task.cancel = some task') : Moves port task task' none := by
  unfold OutputPortSubscription.cancel at h
  split at h
  · rename_i waits
    split at h
    · obtain rfl := Option.some.inj h
      exact .ends (waits ▸ .waiting)
    · cases h
  · cases h

/-- The task that a label is about. -/
def Label.task : Label α β → Option Nat
  | .receive task => some task
  | .convert task => some task
  | .wind task => some task
  | .cancel task => some task
  | _ => none

namespace Port

/-- Everything one step can do. -/
theorem step_cases {port port' : Port α β} {label : Label α β} (h : port.step label = some port') :
    (∃ receiver converter, label = .subscribe receiver converter ∧ port.dropped = false ∧
      port' = port.subscribe receiver converter) ∨
    (∃ msg, label = .send msg ∧ port.dropped = false ∧ port' = port.send msg) ∨
    (label = .drop ∧ port.dropped = false ∧ port' = port.drop) ∨
    (∃ receiver, label = .stop receiver ∧
      port' = { port with stopped := receiver :: port.stopped }) ∨
    ∃ i task task' out, label.task = some i ∧ port.tasks[i]? = some task ∧
      Moves port task task' out ∧ port' = port.moved i task' out := by
  have open_of {next : Port α β}
      (h : (if port.dropped = true then none else some next) = some port') :
      port.dropped = false ∧ port' = next := by
    split at h
    · cases h
    · rename_i undropped
      exact ⟨Bool.eq_false_iff.mpr undropped, (Option.some.inj h).symm⟩
  cases label with
  | subscribe receiver converter => exact .inl ⟨receiver, converter, rfl, open_of h⟩
  | send msg => exact .inr (.inl ⟨msg, rfl, open_of h⟩)
  | drop => exact .inr (.inr (.inl ⟨rfl, open_of h⟩))
  | stop receiver => exact .inr (.inr (.inr (.inl ⟨receiver, rfl, (Option.some.inj h).symm⟩)))
  | receive i =>
      obtain ⟨task, present, h⟩ := Option.bind_eq_some_iff.mp h
      obtain ⟨task', received, rfl⟩ := Option.map_eq_some_iff.mp h
      exact .inr (.inr (.inr (.inr ⟨i, task, task', none, rfl, present,
        moves_of_receive received, rfl⟩)))
  | convert i =>
      obtain ⟨task, present, h⟩ := Option.bind_eq_some_iff.mp h
      obtain ⟨⟨task', out⟩, converted, rfl⟩ := Option.map_eq_some_iff.mp h
      exact .inr (.inr (.inr (.inr ⟨i, task, task', out, rfl, present,
        moves_of_convert converted, rfl⟩)))
  | wind i =>
      obtain ⟨task, present, h⟩ := Option.bind_eq_some_iff.mp h
      obtain ⟨phase, winds, rfl⟩ := Option.map_eq_some_iff.mp h
      exact .inr (.inr (.inr (.inr ⟨i, task, _, none, rfl, present, .ends (.of_wind winds), rfl⟩)))
  | cancel i =>
      obtain ⟨task, present, h⟩ := Option.bind_eq_some_iff.mp h
      obtain ⟨task', cancelled, rfl⟩ := Option.map_eq_some_iff.mp h
      exact .inr (.inr (.inr (.inr ⟨i, task, task', none, rfl, present,
        moves_of_cancel cancelled, rfl⟩)))

/-- The numbers of the messages that a task has cast. -/
def castBy (port : Port α β) (i : Nat) : List Nat :=
  (port.delivered.filter (fun delivery => delivery.task == i)).map (·.number)

theorem castBy_moved_self (port : Port α β) (i : Nat) (task : OutputPortSubscription α β)
    (out : Option (Nat × β)) :
    (port.moved i task out).castBy i = port.castBy i ++ (out.map Prod.fst).toList := by
  unfold castBy moved
  cases out with
  | none => simp
  | some cast => simp

theorem castBy_moved_of_ne (port : Port α β) {i j : Nat} (other : i ≠ j)
    (task : OutputPortSubscription α β) (out : Option (Nat × β)) :
    (port.moved i task out).castBy j = port.castBy j := by
  unfold castBy moved
  cases out with
  | none => simp
  | some cast => simp [other]

theorem send_tasks (port : Port α β) (msg : α) : (port.send msg).tasks = port.tasks := by
  unfold send
  split <;> rfl

end Port

/-! ## One task -/

namespace OutputPortSubscription

/-- The messages it has read and is done with. -/
def settled (task : OutputPortSubscription α β) : List Nat :=
  if task.phase.number.isSome then task.cursor.received.dropLast else task.cursor.received

/-- The message with this number was skipped. -/
def Skips (ring : Broadcast.Ring α) (task : OutputPortSubscription α β) (number : Nat) : Prop :=
  ∃ message strong, ring.sent[number]? = some message ∧ task.converter strong message = .skip

/-- What a task has done with the messages it has read, given those it cast. -/
structure Follows (ring : Broadcast.Ring α) (casts : List Nat)
    (task : OutputPortSubscription α β) : Prop where
  cursor : task.cursor.Sound ring
  last : ∀ number, task.phase.number = some number →
    task.cursor.received = task.cursor.received.dropLast ++ [number]
  held : ∀ number message, task.phase = .holding number message →
    ring.sent[number]? = some message
  ordered : casts.Sublist task.settled
  handled : task.phase.running = true → ∀ number ∈ task.settled,
    number ∈ casts ∨ task.Skips ring number

theorem Follows.settled_holding {ring : Broadcast.Ring α} {casts : List Nat}
    {task : OutputPortSubscription α β} (follows : task.Follows ring casts) {number : Nat}
    (holds : task.phase.number = some number) :
    task.cursor.received = task.settled ++ [number] := by
  rw [settled, holds, Option.isSome_some, if_pos rfl]
  exact follows.last number holds

theorem Follows.send {ring : Broadcast.Ring α} {casts : List Nat}
    {task : OutputPortSubscription α β} (follows : task.Follows ring casts) (msg : α) :
    task.Follows (ring.send msg) casts := by
  have kept : ∀ {number : Nat} {message : α}, ring.sent[number]? = some message →
      (ring.send msg).sent[number]? = some message := by
    intro number message present
    rw [Ring.send, List.getElem?_append_left (List.getElem?_eq_some_iff.mp present).1, present]
  refine ⟨follows.cursor.send msg, follows.last, ?_, follows.ordered, ?_⟩
  · intro number message holds
    exact kept (follows.held number message holds)
  · intro running number member
    rcases follows.handled running number member with cast | ⟨message, strong, present, skipped⟩
    · exact .inl cast
    · exact .inr ⟨message, strong, kept present, skipped⟩

theorem follows_new (ring : Broadcast.Ring α) (converter : Nat → α → Conversion β)
    (receiver : ActorId) : (new ring.subscribe converter receiver).Follows ring [] where
  cursor := Cursor.sound_subscribe ring
  last := by
    intro number holds
    cases holds
  held := by
    intro number message holds
    cases holds
  ordered := List.nil_sublist _
  handled := by
    intro _ number member
    cases member

theorem Follows.stop {ring : Broadcast.Ring α} {casts : List Nat}
    {task : OutputPortSubscription α β} (follows : task.Follows ring casts) :
    task.stop.Follows ring casts :=
  ⟨follows.cursor, follows.last, follows.held, follows.ordered, follows.handled⟩

/-- It has read the next message. -/
theorem Follows.read {ring : Broadcast.Ring α} {casts : List Nat}
    {task : OutputPortSubscription α β} (follows : task.Follows ring casts)
    (waits : task.phase = .waiting) {number : Nat} {message : α} {cursor : Cursor}
    (read : ring.recv task.cursor = some (some (number, message), cursor)) :
    ({ task with cursor := cursor, phase := .holding number message } :
      OutputPortSubscription α β).Follows ring casts := by
  have free : task.settled = task.cursor.received := by simp [settled, waits, Phase.number]
  obtain ⟨overtaken, absurd, _⟩ | ⟨_, reached, present, same, rfl⟩ := Ring.recv_cases read
  · cases absurd
  obtain ⟨rfl, rfl⟩ := Prod.mk.inj (Option.some.inj same)
  refine ⟨follows.cursor.recv read, ?_, ?_, ?_, ?_⟩
  · intro _ holds
    obtain rfl := Option.some.inj holds
    simp
  · rintro _ _ holds
    cases holds
    exact present
  · have ordered := follows.ordered
    rw [free] at ordered
    simpa [settled, Phase.number] using ordered
  · intro _ number member
    have handled := follows.handled (by rw [waits]; rfl) number
    rw [free] at handled
    exact handled (by simpa [settled, Phase.number] using member)

/-- It is done with the message it held: it has cast it, or the converter
    skips it. -/
theorem Follows.done {ring : Broadcast.Ring α} {casts : List Nat}
    {task : OutputPortSubscription α β} (follows : task.Follows ring casts) {number : Nat}
    {message : α} (holds : task.phase = .holding number message) {more : List Nat}
    (outcome : more = [number] ∨ more = [] ∧ task.Skips ring number) :
    ({ task with phase := .waiting } : OutputPortSubscription α β).Follows ring
      (casts ++ more) := by
  have whole := follows.settled_holding (show task.phase.number = some number by rw [holds]; rfl)
  have few : more.Sublist [number] := by
    rcases outcome with rfl | ⟨rfl, _⟩
    · exact List.Sublist.refl _
    · exact List.nil_sublist _
  refine ⟨follows.cursor, ?_, ?_, ?_, ?_⟩
  · rintro _ ⟨⟩
  · rintro _ _ ⟨⟩
  · change (casts ++ more).Sublist task.cursor.received
    rw [whole]
    exact follows.ordered.append few
  · intro _ other member
    change other ∈ task.cursor.received at member
    rw [whole] at member
    rcases List.mem_append.mp member with old | new
    · rcases follows.handled (by rw [holds]; rfl) other old with cast | skipped
      · exact .inl (List.mem_append_left _ cast)
      · exact .inr skipped
    · obtain rfl := List.mem_singleton.mp new
      rcases outcome with rfl | ⟨_, skipped⟩
      · exact .inl (List.mem_append_right _ new)
      · exact .inr skipped

theorem Follows.panics {ring : Broadcast.Ring α} {casts : List Nat}
    {task : OutputPortSubscription α β} (follows : task.Follows ring casts) {number : Nat}
    {message : α} (holds : task.phase = .holding number message) :
    ({ task with phase := .unwinding number } : OutputPortSubscription α β).Follows ring casts := by
  have last := follows.last number (by rw [holds]; rfl)
  refine ⟨follows.cursor, ?_, ?_, ?_, ?_⟩
  · rintro _ ⟨⟩
    exact last
  · rintro _ _ ⟨⟩
  · have ordered := follows.ordered
    simpa [settled, holds, Phase.number] using ordered
  · rintro ⟨⟩

/-- A task outside its loop has no message, and promises nothing of them. -/
theorem Follows.ends {ring : Broadcast.Ring α} {casts : List Nat}
    {task : OutputPortSubscription α β} (follows : task.Follows ring casts) {phase : Phase α}
    (stopped : phase.running = false) (free : phase.number = none) :
    ({ task with phase := phase } : OutputPortSubscription α β).Follows ring casts := by
  refine ⟨follows.cursor, ?_, ?_, ?_, ?_⟩
  · intro number holds
    rw [free] at holds
    cases holds
  · intro number message holds
    change phase = _ at holds
    rw [holds] at stopped
    cases stopped
  · have all : ({ task with phase := phase } : OutputPortSubscription α β).settled =
        task.cursor.received := by simp [settled, free]
    rw [all]
    refine follows.ordered.trans ?_
    unfold settled
    split
    · exact List.dropLast_sublist _
    · exact List.Sublist.refl _
  · intro running
    change phase.running = true at running
    rw [stopped] at running
    cases running

end OutputPortSubscription

open OutputPortSubscription

theorem Phase.Ends.not_running {phase phase' : Phase α} (ends : phase.Ends phase') :
    phase'.running = false ∧ phase'.number = none := by
  cases ends <;> exact ⟨rfl, rfl⟩

/-- A task that moves keeps its account. -/
theorem Moves.follows {port : Port α β} {task task' : OutputPortSubscription α β}
    {out : Option (Nat × β)} {casts : List Nat} (moves : Moves port task task' out)
    (follows : task.Follows port.ring casts) :
    task'.Follows port.ring (casts ++ (out.map Prod.fst).toList) := by
  cases moves with
  | reads waits read =>
      rw [Option.map_none, Option.toList_none, List.append_nil]
      exact follows.read waits read
  | lags waits read =>
      rw [Option.map_none, Option.toList_none, List.append_nil]
      obtain ⟨overtaken, _, rfl⟩ | ⟨_, _, _, absurd, _⟩ := Ring.recv_cases read
      · exact ⟨follows.cursor.recv read, follows.last, follows.held, follows.ordered,
          follows.handled⟩
      · cases absurd
  | forwards holds converted => exact follows.done holds (.inl rfl)
  | skips holds converted =>
      exact follows.done holds (.inr ⟨rfl, _, _, follows.held _ _ holds, converted⟩)
  | panics holds converted =>
      rw [Option.map_none, Option.toList_none, List.append_nil]
      exact follows.panics holds
  | ends steps =>
      rw [Option.map_none, Option.toList_none, List.append_nil]
      exact follows.ends steps.not_running.1 steps.not_running.2

theorem Moves.converter {port : Port α β} {task task' : OutputPortSubscription α β}
    {out : Option (Nat × β)} (moves : Moves port task task' out) :
    task'.converter = task.converter := by
  cases moves <;> rfl

theorem Moves.aborted {port : Port α β} {task task' : OutputPortSubscription α β}
    {out : Option (Nat × β)} (moves : Moves port task task' out) :
    task'.aborted = task.aborted := by
  cases moves <;> rfl

/-- A finished task stays finished. -/
theorem Moves.unfinished {port : Port α β} {task task' : OutputPortSubscription α β}
    {out : Option (Nat × β)} (moves : Moves port task task' out) : task.isDead = false := by
  have alive {phase : Phase α} (isPhase : task.phase = phase) (unfinished : phase ≠ .finished) :
      task.isDead = false := by
    unfold OutputPortSubscription.isDead
    rw [isPhase]
    cases phase with
    | finished => exact absurd rfl unfinished
    | waiting | holding | unwinding | closing | closed => rfl
  cases moves with
  | reads waits | lags waits => exact alive waits (by simp)
  | forwards holds | skips holds | panics holds => exact alive holds (by simp)
  | ends steps =>
      generalize isPhase : task.phase = phase at steps
      cases steps <;> exact alive isPhase (by simp)

/-! ## The whole port -/

namespace Port

/-- The tasks of the port, with every message that was cast and the handles that
    are kept. -/
structure Tracked (port : Port α β) : Prop where
  tasks : ∀ (i : Nat) (task : OutputPortSubscription α β), port.tasks[i]? = some task →
    task.Follows port.ring (port.castBy i)
  delivered : ∀ delivery ∈ port.delivered, ∃ task, port.tasks[delivery.task]? = some task ∧
    ∃ message strong, port.ring.sent[delivery.number]? = some message ∧
      task.converter strong message = .forward delivery.message
  handles : port.dropped = false → ∀ (i : Nat) (task : OutputPortSubscription α β),
    port.tasks[i]? = some task → task.isDead = false → i ∈ port.subscriptions
  aborted : port.dropped = true → ∀ task ∈ port.tasks, task.isDead = false → task.aborted = true

theorem tracked_withRing (size : Nat) : (withRing size : Port α β).Tracked where
  tasks := by simp [withRing]
  delivered := by simp [withRing]
  handles := by simp [withRing]
  aborted := by simp [withRing]

namespace Tracked

variable {port : Port α β}

theorem castBy_nil (tracked : port.Tracked) {i : Nat} (absent : port.tasks.length ≤ i) :
    port.castBy i = [] := by
  unfold castBy
  rw [List.map_eq_nil_iff, List.filter_eq_nil_iff]
  intro delivery member isTask
  obtain ⟨task, present, _⟩ := tracked.delivered delivery member
  have inside := (List.getElem?_eq_some_iff.mp present).1
  have same := eq_of_beq isTask
  omega

theorem subscribe (tracked : port.Tracked) (undropped : port.dropped = false) (receiver : ActorId)
    (converter : Nat → α → Conversion β) : (port.subscribe receiver converter).Tracked := by
  have cases_of {i : Nat} {task : OutputPortSubscription α β}
      (present : (port.subscribe receiver converter).tasks[i]? = some task) :
      port.tasks[i]? = some task ∨
        i = port.tasks.length ∧ task = .new port.ring.subscribe converter receiver := by
    rcases Nat.lt_trichotomy i port.tasks.length with inside | rfl | beyond
    · exact .inl ((List.getElem?_append_left inside).symm.trans present)
    · exact .inr ⟨rfl, by simpa [Port.subscribe] using present.symm⟩
    · have bound := (List.getElem?_eq_some_iff.mp present).1
      simp only [Port.subscribe, List.length_append, List.length_singleton] at bound
      omega
  refine ⟨?_, ?_, ?_, ?_⟩
  · intro i task present
    rcases cases_of present with old | ⟨rfl, rfl⟩
    · exact tracked.tasks i task old
    · change Follows _ (port.castBy port.tasks.length) _
      rw [tracked.castBy_nil (Nat.le_refl _)]
      exact follows_new _ _ _
  · intro delivery member
    obtain ⟨task, present, sound⟩ := tracked.delivered delivery member
    refine ⟨task, ?_, sound⟩
    exact (List.getElem?_append_left (List.getElem?_eq_some_iff.mp present).1).trans present
  · intro _ i task present alive
    change i ∈ List.filter _ _ ++ [port.tasks.length]
    rcases cases_of present with old | ⟨rfl, _⟩
    · apply List.mem_append_left
      apply List.mem_filter.mpr
      refine ⟨tracked.handles undropped i task old alive, ?_⟩
      simp [old, alive]
    · exact List.mem_append_right _ List.mem_cons_self
  · intro isDropped
    rw [Port.subscribe, undropped] at isDropped
    cases isDropped

theorem send (tracked : port.Tracked) (msg : α) : (port.send msg).Tracked := by
  unfold Port.send
  split
  · refine ⟨?_, ?_, tracked.handles, tracked.aborted⟩
    · intro i task present
      exact (tracked.tasks i task present).send msg
    · intro delivery member
      obtain ⟨task, present, message, strong, sent, converted⟩ := tracked.delivered delivery member
      refine ⟨task, present, message, strong, ?_, converted⟩
      exact (List.getElem?_append_left (List.getElem?_eq_some_iff.mp sent).1).trans sent
  · exact tracked

theorem drop (tracked : port.Tracked) (undropped : port.dropped = false) : port.drop.Tracked := by
  have cases_of {i : Nat} {task : OutputPortSubscription α β}
      (present : port.drop.tasks[i]? = some task) : ∃ old, port.tasks[i]? = some old ∧
        task = if i ∈ port.subscriptions then old.stop else old := by
    obtain ⟨old, wasPresent, rfl⟩ := by simpa [Port.drop] using present
    exact ⟨old, wasPresent, rfl⟩
  refine ⟨?_, ?_, ?_, ?_⟩
  · intro i task present
    obtain ⟨old, wasPresent, rfl⟩ := cases_of present
    split
    · exact (tracked.tasks i old wasPresent).stop
    · exact tracked.tasks i old wasPresent
  · intro delivery member
    obtain ⟨task, present, message, strong, sent, converted⟩ := tracked.delivered delivery member
    refine ⟨if delivery.task ∈ port.subscriptions then task.stop else task, ?_, message, strong,
      sent, ?_⟩
    · simp [Port.drop, present]
    · split <;> exact converted
  · intro stillOpen
    cases stillOpen
  · intro _ task member alive
    obtain ⟨i, present⟩ := List.getElem?_of_mem member
    obtain ⟨old, wasPresent, rfl⟩ := cases_of present
    split at alive
    · rename_i kept
      rw [if_pos kept]
      rfl
    · rename_i unkept
      exact absurd (tracked.handles undropped i old wasPresent alive) unkept

theorem moved (tracked : port.Tracked) {i : Nat} {task task' : OutputPortSubscription α β}
    {out : Option (Nat × β)} (present : port.tasks[i]? = some task)
    (moves : Moves port task task' out) : (port.moved i task' out).Tracked := by
  have inside := (List.getElem?_eq_some_iff.mp present).1
  have cases_of {j : Nat} {other : OutputPortSubscription α β}
      (found : (port.moved i task' out).tasks[j]? = some other) :
      (j = i ∧ other = task') ∨ (i ≠ j ∧ port.tasks[j]? = some other) := by
    by_cases same : i = j
    · subst same
      exact .inl ⟨rfl, Option.some.inj (found.symm.trans (List.getElem?_set_self inside))⟩
    · exact .inr ⟨same, (List.getElem?_set_ne same).symm.trans found⟩
  refine ⟨?_, ?_, ?_, ?_⟩
  · intro j other found
    rcases cases_of found with ⟨rfl, rfl⟩ | ⟨different, old⟩
    · rw [castBy_moved_self]
      exact moves.follows (tracked.tasks j task present)
    · rw [castBy_moved_of_ne port different]
      exact tracked.tasks j other old
  · intro delivery member
    rcases List.mem_append.mp member with old | new
    · obtain ⟨caster, found, sound⟩ := tracked.delivered delivery old
      by_cases same : i = delivery.task
      · rw [same] at present
        obtain rfl := Option.some.inj (found.symm.trans present)
        refine ⟨task', ?_, ?_⟩
        · rw [← same]
          exact List.getElem?_set_self inside
        · rw [moves.converter]
          exact sound
      · exact ⟨caster, (List.getElem?_set_ne same).trans found, sound⟩
    · have atSelf : (port.moved i task' out).tasks[i]? = some task' := List.getElem?_set_self inside
      cases moves with
      | forwards holds converted =>
          obtain rfl := List.mem_singleton.mp new
          exact ⟨_, atSelf, _, _, (tracked.tasks i task present).held _ _ holds, converted⟩
      | reads | lags | skips | panics | ends => cases new
  · intro undropped j other found alive
    rcases cases_of found with ⟨rfl, _⟩ | ⟨_, old⟩
    · exact tracked.handles undropped j task present moves.unfinished
    · exact tracked.handles undropped j other old alive
  · intro isDropped other member alive
    obtain ⟨j, found⟩ := List.getElem?_of_mem member
    rcases cases_of found with ⟨rfl, rfl⟩ | ⟨_, old⟩
    · rw [moves.aborted]
      exact tracked.aborted isDropped task (List.mem_of_getElem? present) moves.unfinished
    · exact tracked.aborted isDropped other (List.mem_of_getElem? old) alive

theorem step {port' : Port α β} {label : Label α β} (tracked : port.Tracked)
    (h : port.step label = some port') : port'.Tracked := by
  rcases step_cases h with ⟨receiver, converter, _, undropped, rfl⟩ | ⟨msg, _, _, rfl⟩ |
    ⟨_, undropped, rfl⟩ | ⟨receiver, _, rfl⟩ | ⟨i, task, task', out, _, present, moves, rfl⟩
  · exact tracked.subscribe undropped receiver converter
  · exact tracked.send msg
  · exact tracked.drop undropped
  · exact ⟨tracked.tasks, tracked.delivered, tracked.handles, tracked.aborted⟩
  · exact tracked.moved present moves

end Tracked

theorem run_tracked {size : Nat} {labels : List (Label α β)} {port : Port α β}
    (ran : system.run (withRing size) labels = some port) : port.Tracked :=
  system.run_induction (fun _ _ _ tracked h => tracked.step h) (tracked_withRing size) ran

/-- Each task reads in order what was sent since its subscription, at most once
    and nothing from before it, and loses exactly what the ring overwrote before.
    It casts in the same order, and while it runs it has cast everything it is
    done with, unless its converter skipped it. -/
theorem forwards_in_order (size : Nat) (labels : List (Label α β)) (port : Port α β)
    (ran : system.run (withRing size) labels = some port) (i : Nat)
    (task : OutputPortSubscription α β) (present : port.tasks[i]? = some task) :
    task.cursor.received.Pairwise (· < ·) ∧
    (∀ number ∈ task.cursor.received,
      task.cursor.start ≤ number ∧ number < task.cursor.next) ∧
    (∀ number, task.cursor.start ≤ number → number < task.cursor.next →
      number ∈ task.cursor.received ∨ number < port.ring.oldest) ∧
    task.cursor.start + (task.cursor.received.length + task.cursor.skipped) = task.cursor.next ∧
    (port.castBy i).Sublist task.cursor.received ∧
    (∀ delivery ∈ port.delivered, delivery.task = i → ∃ message strong,
      port.ring.sent[delivery.number]? = some message ∧
        task.converter strong message = .forward delivery.message) ∧
    (task.phase.running = true → ∀ number ∈ task.cursor.received,
      task.phase.number ≠ some number → number ∈ port.castBy i ∨ task.Skips port.ring number) := by
  have tracked := run_tracked ran
  have follows := tracked.tasks i task present
  have settled : task.settled.Sublist task.cursor.received := by
    unfold OutputPortSubscription.settled
    split
    · exact List.dropLast_sublist _
    · exact List.Sublist.refl _
  refine ⟨follows.cursor.increasing, follows.cursor.inside, ?_, follows.cursor.counted,
    follows.ordered.trans settled, ?_, ?_⟩
  · intro number later earlier
    by_cases read : number ∈ task.cursor.received
    · exact .inl read
    · exact .inr (follows.cursor.complete number later earlier read)
  · rintro delivery member rfl
    obtain ⟨caster, found, sound⟩ := tracked.delivered delivery member
    obtain rfl := Option.some.inj (present.symm.trans found)
    exact sound
  · intro running number member notHeld
    apply follows.handled running number
    cases holds : task.phase.number with
    | none => simpa [OutputPortSubscription.settled, holds] using member
    | some held =>
        rw [follows.settled_holding holds] at member
        rcases List.mem_append.mp member with old | new
        · exact old
        · obtain rfl := List.mem_singleton.mp new
          exact absurd holds notHeld

/-- A slow subscriber of a ring of two messages. -/
def slowSubscriber : List (Label Nat Nat) :=
  [.send 7, .subscribe 0 (fun _ n => if n = 3 then .skip else .forward n), .send 1, .receive 0,
    .convert 0, .send 2, .send 3, .send 4, .receive 0, .receive 0, .convert 0, .receive 0,
    .convert 0]

theorem slow_subscriber_in_order : ∃ port task,
    system.run (withRing 2) slowSubscriber = some port ∧ port.tasks[0]? = some task ∧
      port.castBy 0 = [0, 3] ∧ task.cursor.skipped = 1 ∧
      (∀ number ∈ task.cursor.received,
        task.cursor.start ≤ number ∧ number < task.cursor.next) ∧
      (port.castBy 0).Sublist task.cursor.received ∧
      (task.phase.running = true → ∀ number ∈ task.cursor.received,
        task.phase.number ≠ some number →
          number ∈ port.castBy 0 ∨ task.Skips port.ring number) := by
  have summary : (system.run (withRing 2) slowSubscriber).map (fun port =>
      (port.castBy 0, port.tasks[0]?.map (fun task => task.cursor.skipped))) =
      some ([0, 3], some 1) := by
    decide +kernel
  obtain ⟨port, ran, values⟩ := Option.map_eq_some_iff.mp summary
  obtain ⟨casts, skipped⟩ := Prod.mk.inj values
  obtain ⟨task, present, isSkipped⟩ := Option.map_eq_some_iff.mp skipped
  obtain ⟨_, inside, _, _, sublist, _, done⟩ :=
    forwards_in_order 2 slowSubscriber port ran 0 task present
  exact ⟨port, task, ran, present, casts, isSkipped, inside, sublist, done⟩

end Port

/-! ## Dropping the port -/

/-- The steps a phase has left. -/
def Phase.effort : Phase α → Nat
  | .finished => 0
  | .closed => 1
  | .closing => 2
  | .unwinding _ => 3
  | .waiting => 3
  | .holding _ _ => 4

theorem Phase.Ends.effort_lt {phase phase' : Phase α} (ends : phase.Ends phase') :
    phase'.effort < phase.effort := by
  cases ends <;> simp [Phase.effort]

/-- The steps a task has left when nothing more is sent. -/
def OutputPortSubscription.effort (ring : Broadcast.Ring α) (task : OutputPortSubscription α β) :
    Nat :=
  task.phase.effort + 2 * (ring.sent.length - task.cursor.next)

theorem Moves.effort_lt {port : Port α β} {task task' : OutputPortSubscription α β}
    {out : Option (Nat × β)} (moves : Moves port task task' out) :
    task'.effort port.ring < task.effort port.ring := by
  unfold OutputPortSubscription.effort
  cases moves with
  | reads waits read =>
      obtain ⟨_, absurd, _⟩ | ⟨_, _, present, _, rfl⟩ := Ring.recv_cases read
      · cases absurd
      have inside := (List.getElem?_eq_some_iff.mp present).1
      simp only [waits, Phase.effort]
      omega
  | lags waits read =>
      obtain ⟨overtaken, _, rfl⟩ | ⟨_, _, _, absurd, _⟩ := Ring.recv_cases read
      · have kept := port.ring.oldest_le
        dsimp only
        omega
      · cases absurd
  | forwards holds | skips holds | panics holds =>
      simp only [holds, Phase.effort]
      omega
  | ends steps =>
      have less := steps.effort_lt
      dsimp only
      omega

namespace Port

def effort (port : Port α β) : Nat :=
  (port.tasks.map (fun task => task.effort port.ring)).sum

/-- Once the port is dropped, every step of a task brings all of them closer to
    their end. -/
theorem effort_step {port port' : Port α β} {label : Label α β} (dropped : port.dropped = true)
    (h : port.step label = some port') :
    port'.dropped = true ∧ port'.effort + label.task.toList.length ≤ port.effort := by
  rcases step_cases h with ⟨_, _, _, undropped, _⟩ | ⟨_, _, undropped, _⟩ | ⟨_, undropped, _⟩ |
    ⟨receiver, rfl, rfl⟩ | ⟨i, task, task', out, isTask, present, moves, rfl⟩
  · exact absurd dropped (by simp [undropped])
  · exact absurd dropped (by simp [undropped])
  · exact absurd dropped (by simp [undropped])
  · exact ⟨dropped, Nat.le_refl _⟩
  · refine ⟨dropped, ?_⟩
    have less := moves.effort_lt
    have exchanged := Transition.sum_map_set (fun task => task.effort port.ring) present task'
    simp only [effort, moved, isTask, Option.toList_some, List.length_singleton]
    omega

/-- As long as a task of the dropped port is not finished, it can take a step. -/
theorem unfinished_steps {port : Port α β} (tracked : port.Tracked) (dropped : port.dropped = true)
    {i : Nat} {task : OutputPortSubscription α β} (present : port.tasks[i]? = some task)
    (alive : task.isDead = false) :
    ∃ label, label.task = some i ∧ port.step label ≠ none := by
  have aborted := tracked.aborted dropped task (List.mem_of_getElem? present) alive
  cases phase : task.phase with
  | waiting =>
      refine ⟨.cancel i, rfl, ?_⟩
      simp [step, present, OutputPortSubscription.cancel, phase, aborted]
  | holding number message =>
      refine ⟨.convert i, rfl, ?_⟩
      simp only [step, present, Option.bind_some, OutputPortSubscription.convert, phase]
      split
      · split <;> simp
      · simp
      · simp
  | unwinding number =>
      refine ⟨.wind i, rfl, ?_⟩
      simp [step, present, phase, Phase.wind]
  | closing =>
      refine ⟨.wind i, rfl, ?_⟩
      simp [step, present, phase, Phase.wind]
  | closed =>
      refine ⟨.wind i, rfl, ?_⟩
      simp [step, present, phase, Phase.wind]
  | finished =>
      rw [OutputPortSubscription.isDead, phase] at alive
      cases alive

theorem labels_cost (labels : List (Label α β)) :
    (labels.map (fun label => label.task.toList.length)).sum =
      (labels.filterMap Label.task).length := by
  induction labels with
  | nil => rfl
  | cons label rest ih =>
      rw [List.map_cons, List.sum_cons, ih]
      cases isTask : label.task with
      | none => simp [isTask]
      | some task =>
          rw [List.filterMap_cons_some isTask, List.length_cons]
          exact Nat.add_comm 1 _

/-- Dropping the port ends all of its tasks: whatever the actors do, the tasks
    take a bounded number of steps and then have all finished. -/
theorem drop_ends_every_task (size : Nat) (labels : List (Label α β)) (port : Port α β)
    (ran : system.run (withRing size) labels = some port) (dropped : port.dropped = true) :
    (∀ more later, system.run port more = some later →
      (more.filterMap Label.task).length ≤ port.effort) ∧
    ((∀ label, label.task.isSome = true → port.step label = none) →
      ∀ task ∈ port.tasks, task.isDead = true) := by
  constructor
  · intro more later ranOn
    have bounded := system.run_bounded (fun label => label.task.toList.length) (fun _ => 0)
      (fun _ _ _ dropped h => effort_step dropped h) dropped ranOn
    have nothing : (more.map (fun _ => 0)).sum = 0 := by simp
    rw [labels_cost, nothing] at bounded
    omega
  · intro stuck task member
    obtain ⟨i, present⟩ := List.getElem?_of_mem member
    by_contra alive
    obtain ⟨label, isTask, steps⟩ :=
      unfinished_steps (run_tracked ran) dropped present (Bool.eq_false_iff.mpr alive)
    exact steps (stuck label (by rw [isTask]; rfl))

/-- Two subscribers, one of them in the middle of a message. -/
def droppedEarly : List (Label Nat Nat) :=
  [.subscribe 0 (fun _ n => .forward n), .subscribe 1 (fun _ n => .forward n), .send 1, .send 2,
    .receive 0, .drop]

theorem dropped_early_ends : ∃ port, system.run (withRing 4) droppedEarly = some port ∧
    ∀ more later, system.run port more = some later →
      (more.filterMap Label.task).length ≤ 13 := by
  have summary : (system.run (withRing 4) droppedEarly).map (fun port =>
      (port.dropped, port.effort)) = some (true, 13) := by
    decide +kernel
  obtain ⟨port, ran, values⟩ := Option.map_eq_some_iff.mp summary
  obtain ⟨dropped, effort⟩ := Prod.mk.inj values
  have bounded := (drop_ends_every_task 4 droppedEarly port ran dropped).1
  rw [effort] at bounded
  exact ⟨port, ran, bounded⟩

end Port

end MalachiteMempool.Forwarding
