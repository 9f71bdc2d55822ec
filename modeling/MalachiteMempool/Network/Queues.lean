import MalachiteMempool.Network.Sharing

/-! # The ring as a queue for each subscriber

As long as no forwarding task ends, an output port behaves like the channel
that keeps a bounded queue for each receiver: what the owner and the tasks do to
the ring are calls of that channel, and its receivers get what the tasks read.
The models of the mempool and of the network actor use the channel.
-/

namespace MalachiteMempool.Forwarding

open Broadcast

variable {α β : Type}

inductive Call (α : Type) where
  | subscribe
  | send (msg : α)
  | recv (receiver : Nat)
  deriving DecidableEq, Repr

/-- What the owner of the port asks of it. -/
def Label.call : Label α β → Option (Call α)
  | .subscribe _ _ => some .subscribe
  | .send msg => some (.send msg)
  | _ => none

/-- The calls that the owner of a channel makes. -/
def Call.byOwner : Call α → Option (Call α)
  | .recv _ => none
  | call => some call

/-- A channel with everything that its receivers have got from it. -/
structure Queues (α : Type) where
  channel : Channel α
  got : List (Nat × α)

namespace Queues

def withRing (size : Nat) : Queues α := ⟨{ capacity := some size }, []⟩

/-- Nothing is sent while nobody is subscribed. -/
def step (queues : Queues α) : Call α → Option (Queues α)
  | .subscribe => some { queues with channel := queues.channel.subscribe }
  | .send msg =>
      some { queues with
        channel := if 0 < queues.channel.receivers.length then queues.channel.send msg
          else queues.channel }
  | .recv i =>
      (queues.channel.recv i).map (fun received =>
        ⟨received.2, queues.got ++ (received.1.map (fun message => (i, message))).toList⟩)

def system : Transition.System (Queues α) (Call α) where
  step := step

/-- What one receiver has got. -/
def gotBy (queues : Queues α) (i : Nat) : List α :=
  (queues.got.filter (fun entry => entry.1 == i)).map Prod.snd

end Queues

theorem Moves.live {port : Port α β} {task task' : OutputPortSubscription α β}
    {out : Option (Nat × β)} (moves : Moves port task task' out)
    (live : task'.phase.live = true) : task.phase.live = true := by
  cases moves with
  | reads waits | lags waits => rw [waits]; rfl
  | forwards holds | skips holds | panics holds => rw [holds]; rfl
  | ends steps => exact steps.live live

/-- A move reads from the ring, or leaves the cursor where it is. -/
theorem Moves.cursor {port : Port α β} {task task' : OutputPortSubscription α β}
    {out : Option (Nat × β)} (moves : Moves port task task' out) :
    (∃ got, port.ring.recv task.cursor = some (got, task'.cursor) ∧ out = none) ∨
      task'.cursor = task.cursor := by
  cases moves with
  | reads waits read | lags waits read => exact .inl ⟨_, read, rfl⟩
  | forwards | skips | panics | ends => exact .inr rfl

namespace Port

/-- The port's ring seen through the cursors of its tasks. -/
def channel (port : Port α β) : Channel α where
  capacity := some port.ring.size
  receivers := port.tasks.map (fun task => task.cursor.view port.ring)

/-- What one task has read. -/
def readBy (port : Port α β) (task : OutputPortSubscription α β) : List α :=
  task.cursor.received.filterMap (fun number => port.ring.sent[number]?)

/-- No task has dropped its receiver. -/
def AllLive (port : Port α β) : Prop := ∀ task ∈ port.tasks, task.phase.live = true

/-- The queues are those of the port. -/
structure Shows (port : Port α β) (queues : Queues α) : Prop where
  channel : queues.channel = port.channel
  got : ∀ (i : Nat) (task : OutputPortSubscription α β), port.tasks[i]? = some task →
    queues.gotBy i = port.readBy task
  inside : ∀ entry ∈ queues.got, entry.1 < port.tasks.length

theorem readBy_send {port : Port α β} {task : OutputPortSubscription α β}
    (sound : task.cursor.Sound port.ring) (msg : α) :
    readBy { port with ring := port.ring.send msg } task = port.readBy task := by
  apply List.filterMap_congr
  intro number member
  have inside := (sound.inside number member).2
  have bounded := sound.bounded
  exact List.getElem?_append_left (by omega)

theorem AllLive.receiverCount {port : Port α β} (allLive : port.AllLive) :
    port.receiverCount = port.channel.receivers.length := by
  simp only [Port.receiverCount, Port.channel, List.length_map]
  exact List.countP_eq_length.mpr allLive

/-- What a task reads, its queue receives. -/
theorem recv_channel {port : Port α β} {i : Nat} {task : OutputPortSubscription α β}
    {got : Option (Nat × α)} {cursor : Cursor} (present : port.tasks[i]? = some task)
    (read : port.ring.recv task.cursor = some (got, cursor)) :
    port.channel.recv i = some (got.map Prod.snd, { port.channel with
      receivers := port.channel.receivers.set i (cursor.view port.ring) }) := by
  have atTask : port.channel.receivers[i]? = some (task.cursor.view port.ring) := by
    simp [Port.channel, present]
  unfold Channel.recv
  rw [atTask, Option.bind_some]
  rcases Cursor.view_recv read with ⟨lagged, rfl, view⟩ |
    ⟨number, message, current, rfl, pending, view⟩
  · rw [if_pos lagged, view]
    rfl
  · rw [if_neg (by omega), pending]
    dsimp only
    rw [← view]
    rfl

theorem shows_subscribe {port : Port α β} {queues : Queues α} (shows : port.Shows queues)
    (receiver : ActorId) (converter : Nat → α → Conversion β) :
    (port.subscribe receiver converter).Shows
      { queues with channel := queues.channel.subscribe } := by
  refine ⟨?_, ?_, ?_⟩
  · simp only [shows.channel, Channel.subscribe, Port.channel, Port.subscribe, List.map_append,
      List.map_cons, List.map_nil, OutputPortSubscription.new, Cursor.view_subscribe]
  · intro i task present
    by_cases inside : i < port.tasks.length
    · exact shows.got i task ((List.getElem?_append_left inside).symm.trans present)
    · have isNew : task = .new port.ring.subscribe converter receiver := by
        rw [Port.subscribe, List.getElem?_append_right (Nat.not_lt.mp inside)] at present
        exact List.mem_singleton.mp (List.mem_of_getElem? present)
      have nothing : queues.gotBy i = [] := by
        unfold Queues.gotBy
        rw [List.map_eq_nil_iff, List.filter_eq_nil_iff]
        intro entry member isTask
        have earlier := shows.inside entry member
        have same := eq_of_beq isTask
        omega
      rw [isNew]
      exact nothing
  · intro entry member
    have earlier := shows.inside entry member
    simp only [Port.subscribe, List.length_append, List.length_singleton]
    omega

theorem shows_send {port : Port α β} {queues : Queues α} (positive : 0 < port.ring.size)
    (tracked : port.Tracked) (allLive : port.AllLive) (shows : port.Shows queues) (msg : α) :
    (port.send msg).Shows { queues with
      channel := if 0 < queues.channel.receivers.length then queues.channel.send msg
        else queues.channel } := by
  rw [shows.channel, Port.send, allLive.receiverCount]
  split
  · refine ⟨?_, ?_, shows.inside⟩
    · simp only [Port.channel, Channel.send, List.map_map, Channel.mk.injEq]
      refine ⟨rfl, List.map_congr_left ?_⟩
      intro task member
      obtain ⟨i, present⟩ := List.getElem?_of_mem member
      exact (Cursor.view_send positive (tracked.tasks i task present).cursor msg).symm
    · intro i task present
      exact (shows.got i task present).trans
        (readBy_send (tracked.tasks i task present).cursor msg).symm
  · exact ⟨shows.channel ▸ rfl, shows.got, shows.inside⟩

theorem shows_drop {port : Port α β} {queues : Queues α} (shows : port.Shows queues) :
    port.drop.Shows queues := by
  have cursors : port.drop.tasks.map (fun task => task.cursor) =
      port.tasks.map (fun task => task.cursor) := by
    apply List.ext_getElem
    · simp [Port.drop]
    · intro i _ _
      simp only [Port.drop, List.getElem_map, List.getElem_mapIdx]
      split <;> rfl
  refine ⟨?_, ?_, ?_⟩
  · have views := congrArg (List.map (fun cursor => cursor.view port.ring)) cursors
    rw [List.map_map, List.map_map] at views
    rw [shows.channel, Port.channel, Port.channel, Channel.mk.injEq]
    exact ⟨rfl, views.symm⟩
  · intro i task present
    obtain ⟨old, wasPresent, rfl⟩ := by simpa [Port.drop] using present
    rw [shows.got i old wasPresent]
    split <;> rfl
  · intro entry member
    simpa [Port.drop] using shows.inside entry member

/-- A task that reads nothing leaves the queues alone. -/
theorem shows_moved {port : Port α β} {queues : Queues α} (shows : port.Shows queues) {i : Nat}
    {task task' : OutputPortSubscription α β} (present : port.tasks[i]? = some task)
    (sameCursor : task'.cursor = task.cursor) (out : Option (Nat × β)) :
    (port.moved i task' out).Shows queues := by
  obtain ⟨inside, rfl⟩ := List.getElem?_eq_some_iff.mp present
  refine ⟨?_, ?_, ?_⟩
  · have views : (port.tasks.set i task').map (fun task => task.cursor.view port.ring) =
        port.tasks.map (fun task => task.cursor.view port.ring) := by
      apply List.ext_getElem?
      intro j
      by_cases same : i = j
      · subst same
        simp [sameCursor, inside]
      · simp [same]
    rw [shows.channel, Port.channel, Port.channel, Channel.mk.injEq]
    exact ⟨rfl, views.symm⟩
  · intro j other found
    by_cases same : i = j
    · subst same
      obtain rfl := Option.some.inj (found.symm.trans (List.getElem?_set_self inside))
      rw [shows.got i _ present, readBy, readBy, sameCursor]
      rfl
    · exact shows.got j other ((List.getElem?_set_ne same).symm.trans found)
  · intro entry member
    simpa [Port.moved] using shows.inside entry member

/-- A task that reads is a receiver that receives. -/
theorem shows_read {port : Port α β} {queues : Queues α} (shows : port.Shows queues) {i : Nat}
    {task task' : OutputPortSubscription α β} {got : Option (Nat × α)}
    (present : port.tasks[i]? = some task)
    (read : port.ring.recv task.cursor = some (got, task'.cursor)) :
    ∃ next, queues.step (.recv i) = some next ∧ (port.moved i task' none).Shows next := by
  have inside := (List.getElem?_eq_some_iff.mp present).1
  refine ⟨_, by rw [Queues.step, shows.channel, recv_channel present read, Option.map_some], ?_, ?_,
    ?_⟩
  · simp only [Port.channel, Port.moved, List.map_set]
  · intro j other found
    by_cases same : i = j
    · subst same
      obtain rfl := Option.some.inj (found.symm.trans (List.getElem?_set_self inside))
      have before := shows.got i task present
      unfold Queues.gotBy at before ⊢
      rw [List.filter_append, List.map_append, before]
      rcases Ring.recv_cases read with ⟨_, rfl, isCursor⟩ | ⟨message, _, sent, rfl, isCursor⟩
      · simp [readBy, isCursor, Port.moved]
      · simp [readBy, isCursor, Port.moved, sent]
    · have before := shows.got j other ((List.getElem?_set_ne same).symm.trans found)
      have others : ((got.map Prod.snd).map (fun message => (i, message))).toList.filter
          (fun entry => entry.1 == j) = [] := by
        cases got <;> simp [same]
      unfold Queues.gotBy at before ⊢
      rw [List.filter_append, others, List.append_nil, before]
      rfl
  · intro entry member
    have atTask : entry ∈ queues.got ∨ entry.1 = i := by
      rcases List.mem_append.mp member with old | new
      · exact .inl old
      · obtain ⟨message, _, rfl⟩ := Option.map_eq_some_iff.mp (Option.mem_toList.mp new)
        exact .inr rfl
    rw [Port.moved, List.length_set]
    rcases atTask with old | rfl
    · exact shows.inside entry old
    · exact inside

/-- Whoever is live now has always been. -/
theorem allLive_before {port port' : Port α β} {label : Label α β}
    (h : port.step label = some port') (allLive : port'.AllLive) : port.AllLive := by
  intro task member
  rcases step_cases h with ⟨receiver, converter, _, _, rfl⟩ | ⟨msg, _, _, rfl⟩ | ⟨_, _, rfl⟩ |
    ⟨receiver, _, rfl⟩ | ⟨i, old, moved, out, _, present, moves, rfl⟩
  · exact allLive task (List.mem_append_left _ member)
  · apply allLive
    rwa [send_tasks]
  · obtain ⟨i, found⟩ := List.getElem?_of_mem member
    have stopped : port.drop.tasks[i]? =
        some (if i ∈ port.subscriptions then task.stop else task) := by
      simp [Port.drop, found]
    have live := allLive _ (List.mem_of_getElem? stopped)
    split at live <;> exact live
  · exact allLive task member
  · obtain ⟨j, found⟩ := List.getElem?_of_mem member
    by_cases same : i = j
    · subst same
      obtain rfl := Option.some.inj (present.symm.trans found)
      refine moves.live (allLive moved ?_)
      exact List.mem_of_getElem? (List.getElem?_set_self (List.getElem?_eq_some_iff.mp present).1)
    · exact allLive task (List.mem_of_getElem? ((List.getElem?_set_ne same).trans found))

theorem run_one {queues next : Queues α} {call : Call α} (h : queues.step call = some next) :
    Queues.system.run queues [call] = some next :=
  Queues.system.run_cons_eq_some.mpr ⟨next, h, rfl⟩

/-- Every step of the port is a call of the queues, or none. -/
theorem step_shows {port port' : Port α β} {queues : Queues α} {label : Label α β}
    (positive : 0 < port.ring.size) (tracked : port.Tracked) (allLive : port.AllLive)
    (shows : port.Shows queues) (h : port.step label = some port') :
    ∃ calls next, Queues.system.run queues calls = some next ∧
      calls.filterMap Call.byOwner = label.call.toList ∧ port'.Shows next := by
  rcases step_cases h with ⟨receiver, converter, rfl, _, rfl⟩ | ⟨msg, rfl, _, rfl⟩ |
    ⟨rfl, _, rfl⟩ | ⟨receiver, rfl, rfl⟩ | ⟨i, task, task', out, isTask, present, moves, rfl⟩
  · exact ⟨[.subscribe], _, run_one rfl, rfl, shows_subscribe shows receiver converter⟩
  · exact ⟨[.send msg], _, run_one rfl, rfl, shows_send positive tracked allLive shows msg⟩
  · exact ⟨[], queues, rfl, rfl, shows_drop shows⟩
  · exact ⟨[], queues, rfl, rfl, shows.channel, shows.got, shows.inside⟩
  · have unasked : label.call = none := by
      cases label with
      | subscribe | send => cases isTask
      | drop | stop | receive | convert | wind | cancel => rfl
    rw [unasked]
    rcases moves.cursor with ⟨got, read, rfl⟩ | same
    · obtain ⟨next, stepped, showsNext⟩ := shows_read shows present read
      exact ⟨[.recv i], next, run_one stepped, rfl, showsNext⟩
    · exact ⟨[], queues, rfl, rfl, shows_moved shows present same out⟩

/-- The owner can always make its calls. -/
theorem calls_owner (queues : Queues α) (label : Label α β) :
    ∃ next, Queues.system.run queues label.call.toList = some next ∧
      label.call.toList.filterMap Call.byOwner = label.call.toList := by
  cases label with
  | subscribe | send => exact ⟨_, run_one rfl, rfl⟩
  | drop | stop | receive | convert | wind | cancel => exact ⟨queues, rfl, rfl⟩

/-- As long as no task ends, the port is a channel with a bounded queue for each
    subscriber: the same subscriptions and messages lead to the same queues, and
    each receiver gets from them what its task has read. -/
theorem port_refines_queues (size : Nat) (labels : List (Label α β)) (port : Port α β)
    (positive : 0 < size) (ran : system.run (withRing size) labels = some port)
    (allLive : port.AllLive) :
    ∃ calls queues, Queues.system.run (Queues.withRing size) calls = some queues ∧
      calls.filterMap Call.byOwner = labels.filterMap Label.call ∧
      queues.channel = port.channel ∧
      ∀ (i : Nat) (task : OutputPortSubscription α β), port.tasks[i]? = some task →
        queues.gotBy i = port.readBy task := by
  have simulates : ∀ (port : Port α β) (queues : Queues α) (label : Label α β) (next : Port α β),
      (port.ring.size = size ∧ port.Tracked ∧ (port.AllLive → port.Shows queues)) →
      system.step port label = some next →
      ∃ calls queues', Queues.system.run queues calls = some queues' ∧
        calls.filterMap Call.byOwner = label.call.toList ∧
        next.ring.size = size ∧ next.Tracked ∧ (next.AllLive → next.Shows queues') := by
    rintro port queues label next ⟨isSize, tracked, shows⟩ h
    have sameSize : next.ring.size = size := by
      rw [← isSize]
      rcases step_cases h with ⟨_, _, _, _, rfl⟩ | ⟨msg, _, _, rfl⟩ | ⟨_, _, rfl⟩ | ⟨_, _, rfl⟩ |
        ⟨_, _, _, _, _, _, _, rfl⟩
      · rfl
      · unfold Port.send
        split <;> rfl
      · rfl
      · rfl
      · rfl
    by_cases live : next.AllLive
    · have wasLive := allLive_before h live
      obtain ⟨calls, queues', called, asked, showsNext⟩ :=
        step_shows (isSize ▸ positive) tracked wasLive (shows wasLive) h
      exact ⟨calls, queues', called, asked, sameSize, tracked.step h, fun _ => showsNext⟩
    · obtain ⟨queues', called, asked⟩ := calls_owner queues label
      exact ⟨label.call.toList, queues', called, asked, sameSize, tracked.step h,
        fun nextLive => absurd nextLive live⟩
  have initial : (withRing size : Port α β).Shows (Queues.withRing size) :=
    ⟨rfl, by simp [withRing], by simp [Queues.withRing]⟩
  obtain ⟨calls, queues, called, asked, _, _, shows⟩ := Transition.System.run_traces system
    Queues.system simulates ⟨rfl, tracked_withRing size, fun _ => initial⟩ ran
  exact ⟨calls, queues, called, asked, (shows allLive).channel, (shows allLive).got⟩

/-- A lagging subscriber, with another one that subscribed later. -/
def twoSubscribers : List (Label Nat Nat) :=
  [.subscribe 0 (fun _ n => .forward n), .send 1, .subscribe 1 (fun _ n => .forward n), .send 2,
    .send 3, .receive 0, .receive 0, .receive 1]

theorem two_subscribers_queues : ∃ port, system.run (withRing 2) twoSubscribers = some port ∧
    ∃ calls queues, Queues.system.run (Queues.withRing 2) calls = some queues ∧
      calls.filterMap Call.byOwner = twoSubscribers.filterMap Label.call ∧
      queues.channel = port.channel ∧
      ∀ (i : Nat) (task : OutputPortSubscription Nat Nat), port.tasks[i]? = some task →
        queues.gotBy i = port.readBy task := by
  have summary : (system.run (withRing 2) twoSubscribers).map (fun port =>
      port.tasks.all (fun task => task.phase.live)) = some true := by
    decide +kernel
  obtain ⟨port, ran, live⟩ := Option.map_eq_some_iff.mp summary
  have allLive : port.AllLive := by
    intro task member
    exact List.all_eq_true.mp live task member
  exact ⟨port, ran, port_refines_queues 2 twoSubscribers port (by decide) ran allLive⟩

end Port

end MalachiteMempool.Forwarding
