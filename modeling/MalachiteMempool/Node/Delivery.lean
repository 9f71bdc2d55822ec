import MalachiteMempool.Node.Custody

/-! # Submissions that reach the app

The output port is a broadcast channel of bounded capacity, and `send` never
waits for the subscriber.  When the forwarding task is a whole capacity behind,
the oldest event is overwritten and the reply port it holds is dropped: the
`Add` is neither answered nor anywhere on its way.

Every handled `Add` is accounted for through a run exactly when each event that
gets overwritten carries no reply port.
-/

namespace MalachiteMempool

open Broadcast

namespace Node

/-- The mempool has handled this `Add`. -/
def Processed (n : Node) (tx : RawTx) (port : PortId) : Prop :=
  ∃ r ∈ n.pool.log, r.msg = .add tx port

def Answered (n : Node) (port : PortId) : Prop := ∃ value, (port, value) ∈ n.replies

/-- An event the subscriber will still receive, a check in the app's mailbox or
    a result in the mempool's mailbox holds the port. -/
def Held (n : Node) (port : PortId) : Prop := ∃ tx, (tx, some port) ∈ n.checks

def AddsAccounted (n : Node) : Prop :=
  ∀ tx port, n.Processed tx port → n.Answered port ∨ n.Held port

/-- If the step publishes an event, none that it overwrites carries a reply
    port. -/
def OverwritesNoReply (config : MempoolConfig) (n : Node) (label : Label) : Prop :=
  n.admitted config label ≠ 0 → ∀ r ∈ n.port.receivers, r.full n.port.capacity = true →
    ∀ event, r.pending.head? = some event → event.check.2 = none

theorem answered_iff {n : Node} {port : PortId} :
    n.Answered port ↔ 0 < n.replies.countP (fun reply => reply.1 == port) := by
  rw [List.countP_pos_iff]
  constructor
  · intro ⟨value, member⟩
    exact ⟨_, member, by simp⟩
  · intro ⟨⟨port', value⟩, member, same⟩
    obtain rfl : port' = port := by simpa using same
    exact ⟨value, member⟩

theorem held_iff {n : Node} {port : PortId} : n.Held port ↔ 0 < n.refs port := by
  rw [refs, List.countP_pos_iff]
  constructor
  · rintro ⟨tx, member⟩
    exact ⟨_, member, by simp⟩
  · rintro ⟨⟨tx, reply⟩, member, same⟩
    obtain rfl : reply = some port := by simpa using same
    exact ⟨tx, member⟩

/-- Some message about this `Add` is on its way. -/
def InFlight (n : Node) (port : PortId) : Prop :=
  (∃ tx, .add tx port ∈ n.mailbox) ∨ n.Held port

theorem inFlight_iff {n : Node} {port : PortId} :
    n.InFlight port ↔
      0 < (n.mailbox.filterMap Msg.request).countP (fun t => t.1 == port) ∨ 0 < n.refs port := by
  rw [InFlight, requested_countP, held_iff]

theorem processed_countP {n : Node} {tx : RawTx} {port : PortId} (processed : n.Processed tx port) :
    0 < ((n.pool.log.map Record.msg).filterMap Msg.request).countP (fun t => t.1 == port) := by
  obtain ⟨r, member, isAdd⟩ := processed
  refine List.countP_pos_iff.mpr ⟨(port, tx), ?_, by simp⟩
  exact List.mem_filterMap.mpr ⟨_, List.mem_map.mpr ⟨r, member, isAdd⟩, rfl⟩

theorem lost_countP {n : Node} {check : Check} {port : PortId} (member : check ∈ n.lost)
    (carries : check.2 = some port) : 0 < n.lost.countP (fun check => check.2 == some port) :=
  List.countP_pos_iff.mpr ⟨check, member, by simp [carries]⟩

/-- A handled `Add` goes missing only with an overwritten event. -/
theorem addsAccounted_iff {config : MempoolConfig} {n : Node} (single : n.Single config) :
    n.AddsAccounted ↔ ∀ check ∈ n.lost, check.2 = none := by
  constructor
  · intro accounted check member
    cases reply : check.2 with
    | none => rfl
    | some port =>
        exfalso
        have missing := lost_countP member reply
        have once := single.port_once port
        have issued : port < n.asked.length := by
          by_contra outside
          rw [if_neg outside] at once
          omega
        rw [if_pos issued] at once
        have processed : n.Processed n.asked[port] port := by
          rcases single.handled_or_waiting (List.getElem?_eq_getElem issued) with done | waiting
          · exact done
          · have requested := requested_countP.mp ⟨_, waiting⟩
            omega
        rcases accounted _ _ processed with answered | held
        · have := answered_iff.mp answered
          omega
        · have := held_iff.mp held
          omega
  · intro harmless tx port processed
    rw [answered_iff, held_iff]
    have handled := processed_countP processed
    have request := single.request_once port
    have places := (single.port_once port).trans request.symm
    have kept : n.lost.countP (fun check => check.2 == some port) = 0 := by
      apply List.countP_eq_zero.mpr
      intro check member
      simp [harmless check member]
    omega

theorem mem_lost {n : Node} {check : Check} :
    check ∈ n.lost ↔ ∃ event ∈ n.port.missed, event.check = check := by
  rw [lost, List.mem_map]

theorem addsAccounted_step {config : MempoolConfig} {n n' : Node} {label : Label}
    (single : n.Single config) (accounted : n.AddsAccounted)
    (h : step config n label = some n') :
    n'.AddsAccounted ↔ n.OverwritesNoReply config label := by
  rw [addsAccounted_iff (single.step h)]
  have harmless := (addsAccounted_iff single).mp accounted
  unfold OverwritesNoReply
  rcases port_cases single.wired.settled h with ⟨sameLost, _, admitsNone⟩ | ⟨event, port, admits⟩
  · have same : ∀ check, check ∈ n'.lost ↔ check ∈ n.lost := fun check => by
      rw [← Multiset.mem_coe, sameLost, Multiset.mem_coe]
    simp only [same, admitsNone]
    simpa using harmless
  · -- what the event overwrites is lost
    have publishes : n.admitted config label ≠ 0 := by
      rw [admits, single.wired.receivers]
      simp
    simp only [mem_lost, port, Channel.mem_send_missed]
    constructor
    · intro all _ r inside behind oldest first
      exact all _ ⟨oldest, .inr ⟨r, inside, behind, first⟩, rfl⟩
    · intro meets check member
      obtain ⟨oldest, missed, rfl⟩ := member
      rcases missed with old | ⟨r, inside, behind, first⟩
      · exact harmless _ (mem_lost.mpr ⟨oldest, old, rfl⟩)
      · exact meets publishes r inside behind oldest first

/-- Every handled `Add` stays accounted for through a run exactly when no
    published event overwrites one that carries a reply port. -/
theorem adds_accounted_iff_no_reply_overwritten (config : MempoolConfig) (port : OutputPort)
    (labels : List Label) :
    (system config).Always AddsAccounted (start port 1) labels ↔
      (system config).Throughout (OverwritesNoReply config) (start port 1) labels := by
  have initial : (start port 1).AddsAccounted := by
    intro tx reply ⟨r, member, _⟩
    cases member
  exact (system config).always_iff_throughout (fun _ _ _ single h => single.step h)
    (fun _ _ _ => addsAccounted_step) (single_start config port) initial labels

/-- Seventeen submissions are handled before the subscriber receives any. -/
def burst : List Label :=
  (List.range 17).map (fun id => .add (Host.TestTx.serialize ⟨UInt64.ofNat id⟩)) ++
    List.replicate 17 (.handle .calm)

/-- The first submission of the burst is neither answered nor on its way. -/
theorem burst_loses_first_add :
    ∃ n, (system MempoolConfig.default).run (start OutputPort.default 1) burst = some n ∧
      n.lost = [(Host.TestTx.serialize ⟨0⟩, some 0)] ∧ ¬ n.AddsAccounted := by
  refine ⟨_, rfl, rfl, ?_⟩
  intro accounted
  rcases accounted (Host.TestTx.serialize ⟨0⟩) 0 ⟨_, .head _, rfl⟩ with answered | held
  · exact absurd (answered_iff.mp answered) (by decide)
  · exact absurd (held_iff.mp held) (by decide)

/-! ## One reply port, whatever the number of subscribers -/

/-- If the step publishes an event, somebody is subscribed in case it carries
    this reply port, and none that it overwrites carries it. -/
def KeepsReply (config : MempoolConfig) (reply : PortId) (n : Node) (label : Label) : Prop :=
  ∀ check, n.published config label = some check →
    (check.2 = some reply → n.port.receivers ≠ []) ∧
    ∀ r ∈ n.port.receivers, r.full n.port.capacity = true →
      ∀ event, r.pending.head? = some event → event.check.2 ≠ some reply

instance (config : MempoolConfig) (reply : PortId) (n : Node) (label : Label) :
    Decidable (n.KeepsReply config reply label) :=
  inferInstanceAs (Decidable (∀ check ∈ n.published config label,
    (check.2 = some reply → n.port.receivers ≠ []) ∧
    ∀ r ∈ n.port.receivers, r.full n.port.capacity = true →
      ∀ event ∈ r.pending.head?, event.check.2 ≠ some reply))

/-- The port went missing in no overwritten event, and is on its way or used. -/
structure Kept (n : Node) (reply : PortId) : Prop where
  notLost : ∀ check ∈ n.lost, check.2 ≠ some reply
  somewhere : n.InFlight reply ∨ n.Answered reply

variable {config : MempoolConfig} {n n' : Node} {label : Label} {reply : PortId}

theorem notLost_step (settled : Msg.subscribe ∉ n.mailbox) (keeps : n.KeepsReply config reply label)
    (h : step config n label = some n') (notLost : ∀ check ∈ n.lost, check.2 ≠ some reply) :
    ∀ check ∈ n'.lost, check.2 ≠ some reply := by
  intro check member
  rcases publish_cases settled h with ⟨sameLost, _, _⟩ | ⟨event, port, publishes⟩
  · rw [← Multiset.mem_coe, sameLost, Multiset.mem_coe] at member
    exact notLost check member
  · obtain ⟨oldest, missed, rfl⟩ := mem_lost.mp member
    rw [port, Channel.mem_send_missed] at missed
    rcases missed with old | ⟨r, inside, behind, first⟩
    · exact notLost _ (mem_lost.mpr ⟨oldest, old, rfl⟩)
    · exact (keeps _ publishes).2 r inside behind oldest first

theorem countP_returned (check : Option Check) (reply : PortId) :
    (check.toList : Multiset Check).countP (fun check => check.2 == some reply) =
      if check.bind Prod.snd = some reply then 1 else 0 := by
  cases check with
  | none => rfl
  | some check =>
      rw [Multiset.coe_countP, Option.toList_some, List.countP_singleton]
      simp

theorem countP_admitted (config : MempoolConfig) (n : Node) (label : Label) (reply : PortId) :
    (n.admitted config label).countP (fun check => check.2 == some reply) =
      if (n.published config label).bind Prod.snd = some reply then n.port.receivers.length
      else 0 := by
  rw [admitted_eq]
  cases n.published config label with
  | none => rfl
  | some check =>
      rw [Option.map_some, Option.getD_some, ← Multiset.coe_replicate, Multiset.coe_countP,
        List.countP_replicate]
      simp

/-- References come with a published event and go with a handled result. -/
theorem refs_step (settled : Msg.subscribe ∉ n.mailbox) (h : step config n label = some n')
    (notLost : ∀ check ∈ n.lost, check.2 ≠ some reply)
    (notLost' : ∀ check ∈ n'.lost, check.2 ≠ some reply) :
    n'.refs reply + (n.returned label).countP (fun check => check.2 == some reply) =
      n.refs reply + (n.admitted config label).countP (fun check => check.2 == some reply) := by
  have balance := congrArg (Multiset.countP (fun check : Check => (check.2 == some reply) = true))
    (accounts_step settled h)
  have none : n.lost.countP (fun check => check.2 == some reply) = 0 :=
    List.countP_eq_zero.mpr (fun check member => by simpa using notLost check member)
  have none' : n'.lost.countP (fun check => check.2 == some reply) = 0 :=
    List.countP_eq_zero.mpr (fun check member => by simpa using notLost' check member)
  simp only [Multiset.countP_add, Multiset.coe_countP, Bool.decide_eq_true, none, none',
    add_zero] at balance
  exact balance

theorem replies_handle {around : Surroundings} (settled : Msg.subscribe ∉ n.mailbox)
    (h : step config n (.handle around) = some n') :
    ∃ msg rest, n.mailbox = msg :: rest ∧ n'.mailbox = rest ∧
      n'.replies = n.replies ++ repliesTo config n.refs msg n.pool.state := by
  obtain ⟨msg, rest, handled, waiting, took, rfl⟩ := handle_cases h
  obtain ⟨made, _, _⟩ := handleMsg_outside took (head_ne_subscribe settled waiting)
  refine ⟨msg, rest, waiting, rfl, ?_⟩
  simp only [replies, List.flatMap_append, List.flatMap_singleton, Record.replies, made]
  rfl

/-- What the mempool does with its next message keeps the port in one of its
    places: a request is refused or published, a result with the last reference
    is answered. -/
theorem somewhere_handle {around : Surroundings} (settled : Msg.subscribe ∉ n.mailbox)
    (keeps : n.KeepsReply config reply (.handle around))
    (h : step config n (.handle around) = some n')
    (notLost : ∀ check ∈ n.lost, check.2 ≠ some reply)
    (somewhere : n.InFlight reply ∨ n.Answered reply) : n'.InFlight reply ∨ n'.Answered reply := by
  have refs := refs_step settled h notLost (notLost_step settled keeps h notLost)
  obtain ⟨msg, rest, waiting, left, replies'⟩ := replies_handle settled h
  have answers : ∀ value, (reply, value) ∈ repliesTo config n.refs msg n.pool.state →
      n'.Answered reply := by
    intro value inside
    exact ⟨value, replies' ▸ List.mem_append_right _ inside⟩
  simp only [returned, waiting, List.head?_cons, Option.bind_some, countP_returned,
    countP_admitted] at refs
  rcases somewhere with (⟨tx, requested⟩ | held) | ⟨value, replied⟩
  · rw [waiting] at requested
    rcases List.mem_cons.mp requested with rfl | later
    · by_cases full : config.maxPoolSize ≤ n.pool.state.txs.length
      · exact .inr (answers _ (mem_repliesTo.mpr (.inl ⟨tx, rfl, full, rfl⟩)))
      · have publishes : n.published config (.handle around) = some (tx, some reply) := by
          simp [published, waiting, Msg.submission, full]
        have subscribed := List.length_pos_iff.mpr ((keeps _ publishes).1 rfl)
        refine .inl (.inr (held_iff.mpr ?_))
        simp only [publishes, Option.bind_some, if_true, Msg.check, Option.bind_none, reduceCtorEq,
          if_false] at refs
        omega
    · exact .inl (.inl ⟨tx, left ▸ later⟩)
  · have before := held_iff.mp held
    by_cases last : msg.check.bind Prod.snd = some reply ∧ n.refs reply = 1
    · obtain ⟨returns, alone⟩ := last
      cases msg with
      | subscribe | networkEvent | add | take | remove => cases returns
      | checkTxResult tx result port =>
          obtain rfl : port = some reply := returns
          exact .inr (answers _ (mem_repliesTo.mpr (.inr ⟨tx, result, rfl, alone, rfl⟩)))
    · refine .inl (.inr (held_iff.mpr ?_))
      by_cases returns : msg.check.bind Prod.snd = some reply
      · have shared : n.refs reply ≠ 1 := fun alone => last ⟨returns, alone⟩
        rw [if_pos returns] at refs
        omega
      · rw [if_neg returns] at refs
        omega
  · exact .inr ⟨value, replies' ▸ List.mem_append_left _ replied⟩

theorem Kept.step (kept : n.Kept reply) (settled : Msg.subscribe ∉ n.mailbox)
    (keeps : n.KeepsReply config reply label) (h : step config n label = some n') :
    n'.Kept reply := by
  have notLost := notLost_step settled keeps h kept.notLost
  refine ⟨notLost, ?_⟩
  rcases handle_or_idle label with ⟨around, rfl⟩ | idle
  · exact somewhere_handle settled keeps h kept.notLost kept.somewhere
  · have frame := frame_step idle h
    have refs := refs_step settled h kept.notLost notLost
    obtain ⟨returnsNone, admitsNone⟩ : n.returned label = 0 ∧ n.admitted config label = 0 :=
      unmoved_of_idle idle
    rcases kept.somewhere with (⟨tx, waiting⟩ | held) | ⟨value, replied⟩
    · exact .inl (.inl ⟨tx, by rw [frame.mailbox]; exact List.mem_append_left _ waiting⟩)
    · have before := held_iff.mp held
      refine .inl (.inr (held_iff.mpr ?_))
      simp only [returnsNone, admitsNone, Multiset.countP_zero, add_zero] at refs
      omega
    · exact .inr ⟨value, by rw [replies, frame.log]; exact replied⟩

/-- The port of a new `Add` starts in the mempool's mailbox. -/
theorem kept_add {copies : Nat} (tracked : n.Tracked config copies) {tx : RawTx}
    (h : step config n (.add tx) = some n') : n'.Kept n.asked.length := by
  obtain rfl := Option.some.inj h
  refine ⟨fun check member mine => ?_, .inl (.inl ⟨tx, by simp [post]⟩)⟩
  have missing := lost_countP (n := n) member mine
  have unissued := tracked.port_places n.asked.length
  rw [if_neg (Nat.lt_irrefl _)] at unissued
  omega

/-- With one subscriber an overwritten port is nowhere else. -/
theorem Single.gone (single : n.Single config) {check : Check} (member : check ∈ n.lost)
    (mine : check.2 = some reply) : ¬ n.InFlight reply ∧ ¬ n.Answered reply := by
  have missing := lost_countP member mine
  have once := single.port_once reply
  rw [inFlight_iff, answered_iff]
  split at once <;> omega

/-- With a subscriber, the only other thing a step can do is to overwrite the port. -/
theorem overwritten_of_not_keepsReply (settled : Msg.subscribe ∉ n.mailbox)
    (subscribed : n.port.receivers ≠ []) (h : step config n label = some n')
    (breaks : ¬ n.KeepsReply config reply label) : ∃ check ∈ n'.lost, check.2 = some reply := by
  simp only [KeepsReply, not_forall] at breaks
  obtain ⟨check, publishes, breaks⟩ := breaks
  simp only [ne_eq, subscribed, not_false_eq_true, implies_true, true_and, not_forall,
    not_not] at breaks
  obtain ⟨r, inside, behind, event, oldest, mine⟩ := breaks
  rcases publish_cases settled h with ⟨_, _, quiet⟩ | ⟨newest, port, _⟩
  · rw [quiet] at publishes
    cases publishes
  · refine ⟨event.check, mem_lost.mpr ⟨event, ?_, rfl⟩, mine⟩
    rw [port, Channel.mem_send_missed]
    exact .inr ⟨r, inside, behind, oldest⟩

end Node

end MalachiteMempool
