import MalachiteMempool.Network.Subscription

/-! # Events that several apps subscribe to

The app takes an event out of its `Arc` and panics when somebody else still has
a reference.  The ring has one until every subscriber has read the event, and
every task that is about to convert it has another.  So of several apps at most
one gets an event, and the forwarding tasks of the others that read it die.
-/

namespace MalachiteMempool.Forwarding

open Broadcast

variable {α β : Type}

/-- The converter forwards only what nobody else has. -/
def Unwraps (converter : Nat → α → Conversion β) : Prop :=
  ∀ strong message newMsg, converter strong message = .forward newMsg → strong = 1

namespace OutputPortSubscription

/-- The task will not get this message any more, nor has it in hand. -/
def Past (ring : Broadcast.Ring α) (task : OutputPortSubscription α β) (number : Nat) : Prop :=
  task.phase.number ≠ some number ∧
    (task.phase.live = true → number < task.cursor.next ∨ number < ring.oldest)

end OutputPortSubscription

theorem Phase.Ends.live {phase phase' : Phase α} (ends : phase.Ends phase')
    (live : phase'.live = true) : phase.live = true := by
  cases ends with
  | waiting | holding | unwinding | closing => rfl
  | closed => cases live

/-- A task past a message stays past it. -/
theorem Moves.past {port : Port α β} {task task' : OutputPortSubscription α β}
    {out : Option (Nat × β)} (moves : Moves port task task' out) {number : Nat}
    (past : task.Past port.ring number) : task'.Past port.ring number := by
  obtain ⟨free, gone⟩ := past
  cases moves with
  | @reads read message cursor waits received =>
      have before := gone (by rw [waits]; rfl)
      obtain ⟨_, absurd, _⟩ | ⟨_, reached, _, same, rfl⟩ := Ring.recv_cases received
      · cases absurd
      obtain ⟨rfl, _⟩ := Prod.mk.inj (Option.some.inj same)
      constructor
      · intro holds
        have isNext := Option.some.inj holds
        omega
      · intro _
        dsimp only
        omega
  | lags waits received =>
      obtain ⟨overtaken, _, rfl⟩ | ⟨_, _, _, absurd, _⟩ := Ring.recv_cases received
      · refine ⟨free, ?_⟩
        intro live
        have before := gone live
        dsimp only
        omega
      · cases absurd
  | forwards holds | skips holds =>
      refine ⟨by rintro ⟨⟩, ?_⟩
      intro _
      exact gone (by rw [holds]; rfl)
  | panics holds =>
      rw [holds] at free
      refine ⟨free, ?_⟩
      intro _
      exact gone (by rw [holds]; rfl)
  | ends steps =>
      refine ⟨?_, fun live => gone (steps.live live)⟩
      rw [steps.not_running.2]
      rintro ⟨⟩

/-- Two places with the only match are the same place. -/
theorem index_unique_of_countP {Row : Type*} {p : Row → Bool} {rows : List Row} {i j : Nat}
    {first second : Row} (atMost : rows.countP p ≤ 1) (atFirst : rows[i]? = some first)
    (atSecond : rows[j]? = some second) (isFirst : p first = true) (isSecond : p second = true) :
    i = j := by
  induction rows generalizing i j with
  | nil => simp at atFirst
  | cons row rest ih =>
      have absent {k : Nat} {other : Row} (counted : rest.countP p = 0)
          (found : rest[k]? = some other) (isOther : p other = true) : False :=
        List.countP_eq_zero.mp counted other (List.mem_of_getElem? found) isOther
      rw [List.countP_cons] at atMost
      cases i with
      | zero =>
          obtain rfl := Option.some.inj atFirst
          rw [if_pos isFirst] at atMost
          cases j with
          | zero => rfl
          | succ j => exact (absent (by omega) atSecond isSecond).elim
      | succ i =>
          cases j with
          | zero =>
              obtain rfl := Option.some.inj atSecond
              rw [if_pos isSecond] at atMost
              exact (absent (by omega) atFirst isFirst).elim
          | succ j => exact congrArg (· + 1) (ih (by omega) atFirst atSecond)

namespace Port

/-- With one reference left, nobody else has the message or can still get it. -/
theorem past_of_strong {port : Port α β} {i j number : Nat}
    {task other : OutputPortSubscription α β} (unshared : port.strong number = 1)
    (present : port.tasks[i]? = some task) (holds : task.phase.number = some number)
    (found : port.tasks[j]? = some other) (different : i ≠ j) : other.Past port.ring number := by
  have isHolder : (task.phase.number == some number) = true := by simp [holds]
  have counted : 0 < port.tasks.countP (fun task => task.phase.number == some number) :=
    List.countP_pos_iff.mpr ⟨task, List.mem_of_getElem? present, isHolder⟩
  unfold strong at unshared
  constructor
  · intro holdsToo
    have single : port.tasks.countP (fun task => task.phase.number == some number) ≤ 1 := by omega
    exact different (index_unique_of_countP single present found isHolder (by simp [holdsToo]))
  · intro live
    by_contra stillToCome
    have isKept : port.kept number = true := by
      simp only [kept, Bool.and_eq_true, decide_eq_true_eq, List.any_eq_true]
      exact ⟨by omega, other, List.mem_of_getElem? found, live, by omega⟩
    rw [if_pos isKept] at unshared
    omega

/-- Every message that was cast is out of reach of all other tasks. -/
structure Exclusive (port : Port α β) : Prop where
  apart : ∀ delivery ∈ port.delivered, ∀ (i : Nat) (task : OutputPortSubscription α β),
    port.tasks[i]? = some task → delivery.task ≠ i → task.Past port.ring delivery.number
  once : (port.delivered.map (·.number)).Nodup

theorem exclusive_withRing (size : Nat) : (withRing size : Port α β).Exclusive where
  apart := by simp [withRing]
  once := by simp [withRing]

namespace Exclusive

variable {port : Port α β}

theorem moved (exclusive : port.Exclusive) (tracked : port.Tracked) {i : Nat}
    {task task' : OutputPortSubscription α β} {out : Option (Nat × β)}
    (present : port.tasks[i]? = some task) (unwraps : Unwraps task.converter)
    (moves : Moves port task task' out) : (port.moved i task' out).Exclusive := by
  have inside := (List.getElem?_eq_some_iff.mp present).1
  have older : ∀ delivery ∈ port.delivered, ∀ (j : Nat) (other : OutputPortSubscription α β),
      (port.tasks.set i task')[j]? = some other → delivery.task ≠ j →
        other.Past port.ring delivery.number := by
    intro delivery member j other found different
    by_cases same : i = j
    · subst same
      obtain rfl := Option.some.inj (found.symm.trans (List.getElem?_set_self inside))
      exact moves.past (exclusive.apart delivery member i task present different)
    · rw [List.getElem?_set_ne same] at found
      exact exclusive.apart delivery member j other found different
  refine ⟨?_, ?_⟩
  · intro delivery member j other found different
    rcases List.mem_append.mp member with old | new
    · exact older delivery old j other found different
    · cases moves with
      | @forwards number message newMsg holds converted =>
          obtain rfl := List.mem_singleton.mp new
          have unshared := unwraps _ _ _ converted
          change (port.tasks.set i _)[j]? = some other at found
          rw [List.getElem?_set_ne different] at found
          change other.Past port.ring number
          exact past_of_strong unshared present (by rw [holds]; rfl) found different
      | reads | lags | skips | panics | ends => cases new
  · cases moves with
    | @forwards number message newMsg holds converted =>
        have isHeld : task.phase.number = some number := by rw [holds]; rfl
        have follows := tracked.tasks i task present
        simp only [Port.moved, Option.map_some, Option.toList_some, List.map_append, List.map_cons,
          List.map_nil, List.nodup_append]
        refine ⟨exclusive.once, List.nodup_singleton _, ?_⟩
        intro old member new isNew same
        rw [same, List.mem_singleton.mp isNew] at member
        obtain ⟨delivery, delivered, sameNumber⟩ := List.mem_map.mp member
        by_cases byItself : delivery.task = i
        · have cast : number ∈ port.castBy i :=
            List.mem_map.mpr ⟨delivery, List.mem_filter.mpr ⟨delivered, by simp [byItself]⟩,
              sameNumber⟩
          have increasing := follows.cursor.increasing
          rw [follows.settled_holding isHeld, List.pairwise_append] at increasing
          exact Nat.lt_irrefl _
            (increasing.2.2 _ (follows.ordered.subset cast) number List.mem_cons_self)
        · have past := exclusive.apart delivery delivered i task present byItself
          rw [sameNumber] at past
          exact past.1 isHeld
    | reads | lags | skips | panics | ends =>
        simpa only [Port.moved, Option.map_none, Option.toList_none, List.append_nil] using
          exclusive.once

theorem step {port' : Port α β} {label : Label α β} (exclusive : port.Exclusive)
    (tracked : port.Tracked) (unwraps : ∀ task ∈ port.tasks, Unwraps task.converter)
    (h : port.step label = some port') : port'.Exclusive := by
  rcases step_cases h with ⟨receiver, converter, _, _, rfl⟩ | ⟨msg, _, _, rfl⟩ | ⟨_, _, rfl⟩ |
    ⟨receiver, _, rfl⟩ | ⟨i, task, task', out, _, present, moves, rfl⟩
  · refine ⟨?_, exclusive.once⟩
    intro delivery member i task found different
    by_cases inside : i < port.tasks.length
    · exact exclusive.apart delivery member i task
        ((List.getElem?_append_left inside).symm.trans found) different
    · have isNew : task = .new port.ring.subscribe converter receiver := by
        rw [Port.subscribe, List.getElem?_append_right (Nat.not_lt.mp inside)] at found
        exact List.mem_singleton.mp (List.mem_of_getElem? found)
      obtain ⟨_, _, _, _, sent, _⟩ := tracked.delivered delivery member
      rw [isNew]
      exact ⟨by rintro ⟨⟩, fun _ => .inl (List.getElem?_eq_some_iff.mp sent).1⟩
  · unfold Port.send
    split
    · refine ⟨?_, exclusive.once⟩
      intro delivery member i task found different
      obtain ⟨free, gone⟩ := exclusive.apart delivery member i task found different
      refine ⟨free, fun live => (gone live).imp_right ?_⟩
      intro overwritten
      exact Nat.lt_of_lt_of_le overwritten (port.ring.oldest_le_send msg)
    · exact exclusive
  · refine ⟨?_, exclusive.once⟩
    intro delivery member i task found different
    obtain ⟨old, wasPresent, rfl⟩ := by simpa [Port.drop] using found
    have past := exclusive.apart delivery member i old wasPresent different
    split <;> exact past
  · exact ⟨exclusive.apart, exclusive.once⟩
  · exact exclusive.moved tracked present (unwraps task (List.mem_of_getElem? present)) moves

end Exclusive

/-- What holds of the converters that subscribe holds of the converters of all
    tasks. -/
theorem converter_step {admits : (Nat → α → Conversion β) → Prop} {port port' : Port α β}
    {label : Label α β} (known : ∀ task ∈ port.tasks, admits task.converter)
    (admitted : ∀ receiver converter, label = .subscribe receiver converter → admits converter)
    (h : port.step label = some port') : ∀ task ∈ port'.tasks, admits task.converter := by
  intro task member
  rcases step_cases h with ⟨receiver, converter, isSubscribe, _, rfl⟩ | ⟨msg, _, _, rfl⟩ |
    ⟨_, _, rfl⟩ | ⟨receiver, _, rfl⟩ | ⟨i, old, moved, out, _, present, moves, rfl⟩
  · rcases List.mem_append.mp member with old | new
    · exact known task old
    · obtain rfl := List.mem_singleton.mp new
      exact admitted receiver converter isSubscribe
  · rw [send_tasks] at member
    exact known task member
  · obtain ⟨i, inside, rfl⟩ := List.mem_mapIdx.mp member
    have old := known _ (List.getElem_mem inside)
    split <;> exact old
  · exact known task member
  · rcases List.mem_or_eq_of_mem_set member with same | rfl
    · exact known task same
    · rw [moves.converter]
      exact known old (List.mem_of_getElem? present)

/-- A message that two tasks have cast would have been cast twice. -/
theorem cast_by_one {port : Port α β} (exclusive : port.Exclusive) {i j number : Nat}
    (first : number ∈ port.castBy i) (second : number ∈ port.castBy j) : i = j := by
  obtain ⟨delivery, member, isNumber⟩ := List.mem_map.mp first
  obtain ⟨delivery', member', isNumber'⟩ := List.mem_map.mp second
  obtain ⟨delivered, byFirst⟩ := List.mem_filter.mp member
  obtain ⟨delivered', bySecond⟩ := List.mem_filter.mp member'
  have same : delivery = delivery' :=
    List.inj_on_of_nodup_map exclusive.once delivered delivered' (isNumber.trans isNumber'.symm)
  rw [← eq_of_beq byFirst, ← eq_of_beq bySecond, same]

end Port

theorem unwraps_fromEvent : Unwraps Host.AppMsg.fromEvent := by
  intro strong event msg converted
  unfold Host.AppMsg.fromEvent at converted
  split at converted
  · assumption
  · cases converted

theorem fromEvent_skips_nothing (strong : Nat) (event : Event) :
    Host.AppMsg.fromEvent strong event ≠ .skip := by
  unfold Host.AppMsg.fromEvent
  split <;> simp

/-- Whoever subscribes is an app. -/
def Label.ByApp (label : Label Event Host.AppMsg) : Prop :=
  ∀ receiver converter, label = .subscribe receiver converter → converter = Host.AppMsg.fromEvent

/-- A port that only apps have subscribed to. -/
structure Port.ForApps (port : Port Event Host.AppMsg) : Prop where
  tracked : port.Tracked
  exclusive : port.Exclusive
  apps : ∀ task ∈ port.tasks, task.converter = Host.AppMsg.fromEvent

theorem Port.ForApps.step (port : Port Event Host.AppMsg) (label : Label Event Host.AppMsg)
    (port' : Port Event Host.AppMsg) (byApp : label.ByApp) (forApps : port.ForApps)
    (h : Port.system.step port label = some port') : port'.ForApps where
  tracked := forApps.tracked.step h
  exclusive := by
    refine forApps.exclusive.step forApps.tracked ?_ h
    intro task member
    rw [forApps.apps task member]
    exact unwraps_fromEvent
  apps := Port.converter_step forApps.apps byApp h

/-- However many apps subscribe to the mempool's port, an event is cast to at
    most one of them, and of the tasks that are done with the same event at most
    one still runs. -/
theorem events_reach_one_app (size : Nat) (labels : List (Label Event Host.AppMsg))
    (port : Port Event Host.AppMsg)
    (apps : ∀ receiver converter, .subscribe receiver converter ∈ labels →
      converter = Host.AppMsg.fromEvent)
    (ran : Port.system.run (Port.withRing size) labels = some port) :
    (port.delivered.map (·.number)).Nodup ∧
    ∀ (i j : Nat) (task other : OutputPortSubscription Event Host.AppMsg) (number : Nat), i ≠ j →
      port.tasks[i]? = some task → port.tasks[j]? = some other →
      number ∈ task.settled → number ∈ other.settled →
      ¬ (task.phase.running = true ∧ other.phase.running = true) := by
  have byApps : ∀ label ∈ labels, label.ByApp := by
    rintro label member receiver converter rfl
    exact apps receiver converter member
  have initial : (Port.withRing size : Port Event Host.AppMsg).ForApps :=
    ⟨Port.tracked_withRing size, Port.exclusive_withRing size, by simp [Port.withRing]⟩
  obtain ⟨tracked, exclusive, known⟩ :=
    Port.system.run_invariant Port.ForApps.step byApps initial ran
  refine ⟨exclusive.once, ?_⟩
  rintro i j task other number different present found settled settled' ⟨running, running'⟩
  have cast {k : Nat} {subscriber : OutputPortSubscription Event Host.AppMsg}
      (among : port.tasks[k]? = some subscriber) (done : number ∈ subscriber.settled)
      (runs : subscriber.phase.running = true) : number ∈ port.castBy k := by
    rcases (tracked.tasks k subscriber among).handled runs number done with cast | skipped
    · exact cast
    · obtain ⟨event, strong, _, skips⟩ := skipped
      rw [known subscriber (List.mem_of_getElem? among)] at skips
      exact absurd skips (fromEvent_skips_nothing strong event)
  exact different (Port.cast_by_one exclusive (cast present settled running)
    (cast found settled' running'))

/-- Two apps, one event: the task that converts it first dies of it. -/
def twoApps : List (Label Event Host.AppMsg) :=
  [.subscribe 0 Host.AppMsg.fromEvent, .subscribe 1 Host.AppMsg.fromEvent,
    .send (.checkTx ⟨[1]⟩ none), .receive 0, .convert 0, .wind 0, .receive 1, .wind 0, .wind 0,
    .convert 1, .send (.checkTx ⟨[2]⟩ none), .receive 1, .convert 1]

theorem two_apps_one_event : ∃ port, Port.system.run (Port.withRing 16) twoApps = some port ∧
    port.castBy 0 = [] ∧ port.castBy 1 = [0, 1] ∧ (port.delivered.map (·.number)).Nodup := by
  have summary : (Port.system.run (Port.withRing 16) twoApps).map (fun port =>
      (port.castBy 0, port.castBy 1)) = some ([], [0, 1]) := by
    decide +kernel
  obtain ⟨port, ran, values⟩ := Option.map_eq_some_iff.mp summary
  obtain ⟨first, second⟩ := Prod.mk.inj values
  have apps : ∀ receiver converter, .subscribe receiver converter ∈ twoApps →
      converter = Host.AppMsg.fromEvent := by
    intro receiver converter member
    simp [twoApps] at member
    rcases member with ⟨_, rfl⟩ | ⟨_, rfl⟩ <;> rfl
  exact ⟨port, ran, first, second, (events_reach_one_app 16 twoApps port apps ran).1⟩

end MalachiteMempool.Forwarding
