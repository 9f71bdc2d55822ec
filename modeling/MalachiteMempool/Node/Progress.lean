import MalachiteMempool.Node.Capacity
import MalachiteMempool.Node.Replies

/-! # The work a node is left with

Every message into the node causes a bounded number of steps of the node itself:
the mempool handles it, and if it is a submission each subscriber forwards its
event, checks it and has its result handled.  An overwritten event saves more
steps than the news of the loss costs.

As long as anything waits, some step is possible.  When nothing waits any more,
every `Add` has been answered exactly once, or its event was overwritten.
-/

namespace MalachiteMempool

open Host Broadcast

/-- The steps that a message to the mempool still takes. -/
def Msg.effort (copies : Nat) (msg : Msg) : Nat :=
  1 + if msg.submission.isSome then 3 * copies else 0

/-- The steps that the events waiting for a subscriber still take. -/
def receiverEffort (r : Receiver Event) : Nat :=
  3 * r.pending.length + min r.lagged 1

namespace Label

/-- A step of the node itself. -/
def internal : Label → Bool
  | .handle _ => true
  | .forward _ => true
  | .app _ _ => true
  | _ => false

/-- The steps that a message from outside causes. -/
def effort (copies : Nat) : Label → Nat
  | .add _ => 1 + 3 * copies
  | .gossip event => (Msg.networkEvent event).effort copies
  | .remove _ => 1
  | .take _ => 1
  | .appRemove _ _ => 2
  | .appTake _ _ => 2
  | _ => 0

end Label

theorem receiverEffort_offer (capacity : Option Nat) (event : Event) (r : Receiver Event) :
    receiverEffort (r.offer capacity event) ≤ receiverEffort r + 3 := by
  obtain ⟨pending, lagged, missed⟩ := r
  cases pending with
  | nil =>
      simp only [Receiver.offer, receiverEffort, List.length_cons, List.length_nil]
      omega
  | cons oldest rest =>
      simp only [Receiver.offer]
      split
      all_goals
        simp only [receiverEffort, List.length_append, List.length_cons, List.length_nil]
        omega

theorem receiversEffort_send (port : OutputPort) (event : Event) :
    ((Channel.send port event).receivers.map receiverEffort).sum ≤
      (port.receivers.map receiverEffort).sum + 3 * port.receivers.length := by
  obtain ⟨capacity, receivers⟩ := port
  simp only [Channel.send]
  induction receivers with
  | nil => exact Nat.le_refl _
  | cons r rest ih =>
      have here := receiverEffort_offer capacity event r
      simp only [List.map_cons, List.sum_cons, List.length_cons]
      omega

/-- A received event takes two more steps, the news of a loss none. -/
theorem receiversEffort_recv {port port' : OutputPort} {app : Nat} {got : Option Event}
    (received : port.recv app = some (got, port')) :
    (port'.receivers.map receiverEffort).sum + 1 + 2 * got.toList.length =
      (port.receivers.map receiverEffort).sum := by
  obtain ⟨r, present, h⟩ := Option.bind_eq_some_iff.mp received
  split at h
  · rename_i lagged
    obtain ⟨rfl, rfl⟩ := Prod.mk.inj (Option.some.inj h)
    have exchanged := Transition.sum_map_set receiverEffort present { r with lagged := 0 }
    have told : receiverEffort r = receiverEffort { r with lagged := 0 } + 1 := by
      simp only [receiverEffort]
      omega
    simp only [Option.toList_none, List.length_nil]
    omega
  · split at h
    · cases h
    · rename_i event rest waiting
      obtain ⟨rfl, rfl⟩ := Prod.mk.inj (Option.some.inj h)
      have exchanged := Transition.sum_map_set receiverEffort present { r with pending := rest }
      have taken : receiverEffort r = receiverEffort { r with pending := rest } + 3 := by
        simp only [receiverEffort, waiting, List.length_cons]
        omega
      simp only [Option.toList_some, List.length_singleton]
      omega

/-- What an app sends takes the one step of handling it. -/
theorem appHandle_effort (copies : Nat) (check : RawTx → AppResult) (msg : AppMsg) :
    (appHandle check msg).effort copies = 1 := by
  cases msg with
  | mempoolEvent event =>
      cases event
      rfl
  | take reply => rfl
  | remove hashes => rfl

namespace Node

/-- The steps that everything in the node still takes. -/
def effort (copies : Nat) (n : Node) : Nat :=
  (n.mailbox.map (Msg.effort copies)).sum + (n.port.receivers.map receiverEffort).sum +
    (n.apps.map (fun box => 2 * box.length)).sum

/-- Nothing waits anywhere. -/
structure Quiet (n : Node) : Prop where
  mailbox : n.mailbox = []
  receivers : ∀ r ∈ n.port.receivers, r.pending = [] ∧ r.lagged = 0
  apps : ∀ box ∈ n.apps, box = []

theorem effort_postApp {n n' : Node} {app : Nat} {msg : AppMsg} (copies : Nat)
    (h : n.postApp app msg = some n') : n'.effort copies = n.effort copies + 2 := by
  obtain ⟨box, present, rfl⟩ := postApp_cases h
  have exchanged := Transition.sum_map_set (fun box : List AppMsg => 2 * box.length) present
    (box ++ [msg])
  simp only [List.length_append, List.length_singleton] at exchanged
  simp only [effort, Node.port]
  omega

theorem effort_handle {config : MempoolConfig} {n n' : Node} {around : Surroundings} {copies : Nat}
    (wired : n.Wired copies) (h : step config n (.handle around) = some n') :
    n'.effort copies + 1 ≤ n.effort copies := by
  obtain ⟨msg, rest, handled, waiting, took, rfl⟩ := handle_cases h
  obtain ⟨_, _, port⟩ := handleMsg_outside took (head_ne_subscribe wired.settled waiting)
  simp only [effort, Node.port, waiting, List.map_cons, List.sum_cons, Msg.effort]
  cases submits : msg.submission with
  | none =>
      simp only [submits] at port
      rw [port]
      omega
  | some check =>
      simp only [submits] at port
      rw [port]
      have sent := receiversEffort_send n.port (.checkTx check.1 check.2)
      rw [wired.receivers] at sent
      simp only [Option.isSome_some, if_true]
      split
      · omega
      · rw [outputPort_send]
        simp only [Node.port] at sent
        omega

/-- A step of the node itself is paid for, and other steps bring in no more than
    their message causes. -/
theorem effort_step {config : MempoolConfig} {n n' : Node} {label : Label} {copies : Nat}
    (wired : n.Wired copies) (h : step config n label = some n') :
    n'.effort copies + label.internal.toNat ≤ n.effort copies + label.effort copies := by
  cases label with
  | handle around => exact Nat.le_add_right_of_le (effort_handle wired h)
  | forward app =>
      obtain ⟨got, port, received, outcome⟩ := forward_cases h
      have paid := receiversEffort_recv received
      rcases outcome with ⟨rfl, rfl⟩ | ⟨event, box, rfl, present, rfl⟩
      · simp only [effort, setPort, Node.port, Label.internal, Label.effort, Bool.toNat_true,
          Option.toList_none, List.length_nil] at *
        omega
      · have exchanged := Transition.sum_map_set (fun box : List AppMsg => 2 * box.length) present
          (box ++ [.mempoolEvent event])
        simp only [effort, setPort, Node.port, Label.internal, Label.effort, Bool.toNat_true,
          Option.toList_some, List.length_singleton, List.length_append] at *
        omega
  | app app check =>
      obtain ⟨msg, rest, present, rfl⟩ := app_cases h
      have exchanged :=
        Transition.sum_map_set (fun box : List AppMsg => 2 * box.length) present rest
      have answered := appHandle_effort copies check msg
      simp only [effort, post, Node.port, Label.internal, Label.effort, Bool.toNat_true,
        List.map_append, List.sum_append, List.map_cons, List.map_nil, List.sum_cons, List.sum_nil,
        List.length_cons] at *
      omega
  | appRemove app hashes | appTake app reply => exact (effort_postApp copies h).le
  | add tx | gossip event | remove hashes | take reply =>
      obtain rfl := Option.some.inj h
      simp only [effort, post, Node.port, Label.internal, Label.effort, Bool.toNat_false,
        List.map_append, List.sum_append, List.map_cons, List.map_nil, List.sum_cons, List.sum_nil,
        Msg.effort, Msg.submission, Option.isSome_some, Option.isSome_none, if_true,
        Bool.false_eq_true, if_false]
      omega

/-! ## Nothing gets stuck -/

theorem handle_enabled {config : MempoolConfig} {n : Node} (sound : ∃ queue, Sound n.pool queue)
    (waiting : n.mailbox ≠ []) (around : Surroundings) :
    step config n (.handle around) ≠ none := by
  obtain ⟨queue, sound⟩ := sound
  obtain ⟨msg, rest, isMailbox⟩ := List.exists_cons_of_ne_nil waiting
  obtain ⟨next, ran, _⟩ := sound.handle config (n.env around) msg
  simp [step, isMailbox, ran]

theorem forward_enabled {config : MempoolConfig} {n : Node} {copies : Nat} (wired : n.Wired copies)
    {app : Nat} {r : Receiver Event} (present : n.port.receivers[app]? = some r)
    (busy : r.pending ≠ [] ∨ 0 < r.lagged) : step config n (.forward app) ≠ none := by
  have inside : app < n.apps.length := by
    have bound := (List.getElem?_eq_some_iff.mp present).1
    rwa [wired.receivers, ← wired.apps] at bound
  simp only [step, Channel.recv, present, Option.bind_some]
  split
  · simp
  · rename_i told
    obtain ⟨event, rest, pending⟩ := List.exists_cons_of_ne_nil (busy.resolve_right told)
    simp [pending, postApp, setPort, inside]

theorem app_enabled {config : MempoolConfig} {n : Node} {app : Nat} {box : List AppMsg}
    (present : n.apps[app]? = some box) (busy : box ≠ []) (check : RawTx → AppResult) :
    step config n (.app app check) ≠ none := by
  obtain ⟨msg, rest, rfl⟩ := List.exists_cons_of_ne_nil busy
  simp [step, present]

/-- A node that cannot move has nothing left to do. -/
theorem quiet_of_stuck {config : MempoolConfig} {n : Node} {copies : Nat} (wired : n.Wired copies)
    (sound : ∃ queue, Sound n.pool queue)
    (stuck : ∀ label : Label, label.internal = true → step config n label = none) : n.Quiet where
  mailbox := by
    by_contra waiting
    exact handle_enabled sound waiting .calm (stuck _ rfl)
  receivers := by
    intro r member
    obtain ⟨app, present⟩ := List.getElem?_of_mem member
    by_contra busy
    have busy : r.pending ≠ [] ∨ 0 < r.lagged := by
      by_cases pending : r.pending = []
      · exact .inr (Nat.pos_of_ne_zero (fun untold => busy ⟨pending, untold⟩))
      · exact .inl pending
    exact forward_enabled wired present busy (stuck _ rfl)
  apps := by
    intro box member
    obtain ⟨app, present⟩ := List.getElem?_of_mem member
    by_contra busy
    exact app_enabled present busy checkTx (stuck _ rfl)

/-- In any run the node takes no more steps of its own than the messages from
    outside cause, and it can only stop when nothing waits anywhere. -/
theorem work_bounded_and_finished (config : MempoolConfig) (port : OutputPort) (subscribers : Nat)
    (labels : List Label) (n : Node)
    (ran : (system config).run (start port subscribers) labels = some n) :
    labels.countP Label.internal + n.effort subscribers ≤
        (labels.map (Label.effort subscribers)).sum ∧
      ((∀ label : Label, label.internal = true → step config n label = none) → n.Quiet) := by
  have stocked := (system config).run_induction (fun _ _ _ => Stocked.step)
    (stocked_start port subscribers) ran
  have fresh : (start port subscribers).effort subscribers = 0 := by
    simp [effort, start, Node.port, History.init, OutputPort.subscribed, receiverEffort]
  have bounded := (system config).run_bounded (fun label => label.internal.toNat)
    (Label.effort subscribers) (fun _ _ _ wired h => ⟨wired.step h, effort_step wired h⟩)
    (wired_start port subscribers) ran
  rw [fresh, Transition.sum_map_toNat] at bounded
  exact ⟨by omega, quiet_of_stuck stocked.wired stocked.sound⟩

theorem round_trip_works_it_off : ∃ n,
    (system MempoolConfig.default).run (start OutputPort.default 1) roundTrip = some n ∧
      roundTrip.countP Label.internal + n.effort 1 ≤ (roundTrip.map (Label.effort 1)).sum := by
  refine ⟨_, rfl, ?_⟩
  exact (work_bounded_and_finished MempoolConfig.default OutputPort.default 1 roundTrip _ rfl).1

/-- When nothing waits any more, every `Add` has been answered exactly once and
    its event was delivered, or it was not answered and its event was overwritten. -/
theorem quiet_settles_adds (config : MempoolConfig) (port : OutputPort) (labels : List Label)
    (n : Node) (ran : (system config).run (start port 1) labels = some n) (quiet : n.Quiet)
    (reply : PortId) (asked : reply < n.asked.length) :
    n.replies.countP (fun sent => sent.1 == reply) +
      n.lost.countP (fun check => check.2 == some reply) = 1 := by
  have once := (run_single ran).port_once reply
  have waiting : n.port.waiting = [] := by
    apply List.flatMap_eq_nil_iff.mpr
    intro r member
    exact (quiet.receivers r member).1
  have apps : n.apps.flatMap (fun box => box.filterMap AppMsg.check) = [] := by
    apply List.flatMap_eq_nil_iff.mpr
    intro box member
    rw [quiet.apps box member, List.filterMap_nil]
  have checks : n.checks = [] := by
    unfold checks
    rw [waiting, apps, quiet.mailbox]
    rfl
  have refs : n.refs reply = 0 := by
    rw [Node.refs, checks, List.countP_nil]
  rw [quiet.mailbox, refs, if_pos asked, List.filterMap_nil, List.countP_nil] at once
  omega

theorem round_trip_settles_add : ∃ n,
    (system MempoolConfig.default).run (start OutputPort.default 1) roundTrip = some n ∧
      n.replies.countP (fun sent => sent.1 == 0) +
        n.lost.countP (fun check => check.2 == some 0) = 1 := by
  refine ⟨_, rfl, ?_⟩
  apply quiet_settles_adds MempoolConfig.default OutputPort.default roundTrip _ rfl
  · exact ⟨rfl, by decide, by decide⟩
  · decide

end Node

end MalachiteMempool
