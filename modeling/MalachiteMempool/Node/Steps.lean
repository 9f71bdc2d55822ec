import MalachiteMempool.Node.System

/-! # What one step of a node can do

One inversion lemma for each kind of step, the frame of the steps in which the
mempool has no part, and the balance of the checks under way.  A check is
admitted when the mempool handles a submission with room in the pool, travels
through the output port and an app, and leaves when the mempool handles its
result; the only other way out is to be overwritten in the output port.
-/

namespace MalachiteMempool

open Host Broadcast

namespace Node

/-- Checks whose event was overwritten in the output port. -/
def lost (n : Node) : List Check := n.port.missed.map Event.check

/-- The checks a step lets in. -/
def admitted (config : MempoolConfig) (n : Node) : Label → Multiset Check
  | .handle _ =>
      match n.mailbox.head?.bind Msg.submission with
      | some check =>
          if config.maxPoolSize ≤ n.pool.state.txs.length then 0
          else Multiset.replicate n.port.receivers.length check
      | none => 0
  | _ => 0

/-- The checks whose result a step handles. -/
def returned (n : Node) : Label → Multiset Check
  | .handle _ => (n.mailbox.head?.bind Msg.check).toList
  | _ => 0

/-- The check whose event a step publishes, if there is a subscriber or not. -/
def published (config : MempoolConfig) (n : Node) : Label → Option Check
  | .handle _ =>
      if config.maxPoolSize ≤ n.pool.state.txs.length then none
      else n.mailbox.head?.bind Msg.submission
  | _ => none

/-- A published check is let in once for each subscriber. -/
theorem admitted_eq (config : MempoolConfig) (n : Node) (label : Label) :
    n.admitted config label = ((n.published config label).map
      (Multiset.replicate n.port.receivers.length)).getD 0 := by
  cases label with
  | add | gossip | remove | take | appRemove | appTake | forward | app => rfl
  | handle around =>
      by_cases full : config.maxPoolSize ≤ n.pool.state.txs.length <;>
        cases submits : n.mailbox.head?.bind Msg.submission <;>
          simp [admitted, published, submits, full]

theorem unmoved_of_idle {config : MempoolConfig} {n : Node} {label : Label}
    (idle : ∀ around, label ≠ .handle around) :
    n.returned label = 0 ∧ n.admitted config label = 0 := by
  cases label with
  | handle around => exact absurd rfl (idle around)
  | add | gossip | remove | take | appRemove | appTake | forward | app => exact ⟨rfl, rfl⟩

/-- As many forwarding tasks as apps, and no further subscription under way. -/
structure Wired (n : Node) (subscribers : Nat) : Prop where
  receivers : n.port.receivers.length = subscribers
  apps : n.apps.length = subscribers
  settled : Msg.subscribe ∉ n.mailbox

theorem wired_start (port : OutputPort) (subscribers : Nat) :
    (start port subscribers).Wired subscribers :=
  ⟨by simp [start, Node.port, History.init, OutputPort.subscribed], by simp [start],
    by simp [start]⟩

theorem head_ne_subscribe {n : Node} (settled : Msg.subscribe ∉ n.mailbox) {msg : Msg}
    {rest : List Msg} (waiting : n.mailbox = msg :: rest) : msg ≠ .subscribe := by
  intro same
  exact settled (by simp [waiting, same])

theorem checks_eq (n : Node) :
    (n.checks : Multiset Check) = (n.port.waiting : Multiset Event).map Event.check +
      (n.apps.flatMap (fun box => box.filterMap AppMsg.check) : List Check) +
      (n.mailbox.filterMap Msg.check : List Check) := by
  simp only [checks, ← Multiset.coe_add, Multiset.map_coe]

theorem lost_eq (n : Node) :
    (n.lost : Multiset Check) = (n.port.missed : Multiset Event).map Event.check := by
  simp only [lost, Multiset.map_coe]

/-! ## What each kind of step can do -/

theorem postApp_cases {n n' : Node} {app : Nat} {msg : AppMsg}
    (h : n.postApp app msg = some n') :
    ∃ box, n.apps[app]? = some box ∧ n' = { n with apps := n.apps.set app (box ++ [msg]) } := by
  obtain ⟨box, present, rfl⟩ := Option.map_eq_some_iff.mp h
  exact ⟨box, present, rfl⟩

theorem handle_cases {config : MempoolConfig} {n n' : Node} {around : Surroundings}
    (h : step config n (.handle around) = some n') :
    ∃ msg rest handled, n.mailbox = msg :: rest ∧
      handleMsg config (n.env around) msg n.pool.state = some handled ∧
      n' = { n with
        pool := ⟨handled.state,
          n.pool.log ++ [⟨n.pool.state, msg, handled.state, handled.effects⟩]⟩
        mailbox := rest } := by
  cases waiting : n.mailbox with
  | nil => simp [step, waiting] at h
  | cons msg rest =>
      simp only [step, waiting, History.handle, Option.map_map, Option.map_eq_some_iff] at h
      obtain ⟨handled, took, rfl⟩ := h
      exact ⟨msg, rest, handled, rfl, took, rfl⟩

theorem forward_cases {config : MempoolConfig} {n n' : Node} {app : Nat}
    (h : step config n (.forward app) = some n') :
    ∃ got port, n.port.recv app = some (got, port) ∧
      ((got = none ∧ n' = n.setPort port) ∨ ∃ event box, got = some event ∧
        n.apps[app]? = some box ∧
        n' = { n.setPort port with apps := n.apps.set app (box ++ [.mempoolEvent event]) }) := by
  obtain ⟨⟨got, port⟩, received, h⟩ := Option.bind_eq_some_iff.mp h
  refine ⟨got, port, received, ?_⟩
  cases got with
  | none => exact .inl ⟨rfl, (Option.some.inj h).symm⟩
  | some event =>
      obtain ⟨box, present, rfl⟩ := postApp_cases h
      exact .inr ⟨event, box, rfl, present, rfl⟩

theorem app_cases {config : MempoolConfig} {n n' : Node} {app : Nat} {check : RawTx → AppResult}
    (h : step config n (.app app check) = some n') :
    ∃ msg rest, n.apps[app]? = some (msg :: rest) ∧
      n' = { n.post (appHandle check msg) with
        apps := n.apps.set app rest
        appSent := n.appSent ++ [(app, appHandle check msg)] } := by
  simp only [step] at h
  split at h
  · rename_i msg rest present
    exact ⟨msg, rest, present, (Option.some.inj h).symm⟩
  · cases h

/-- The messages a step puts into the mempool's mailbox. -/
def posted (n : Node) : Label → List Msg
  | .add tx => [.add tx n.asked.length]
  | .gossip event => [.networkEvent event]
  | .remove hashes => [.remove hashes]
  | .take reply => [.take reply]
  | .app app check =>
      match n.apps[app]? with
      | some (msg :: _) => [appHandle check msg]
      | _ => []
  | _ => []

/-- What stays the same while the mempool itself does nothing. -/
structure Frame (n n' : Node) (label : Label) : Prop where
  txs : n'.pool.state.txs = n.pool.state.txs
  txHashes : n'.pool.state.txHashes = n.pool.state.txHashes
  log : n'.pool.log = n.pool.log
  mailbox : n'.mailbox = n.mailbox ++ n.posted label
  asked : n'.asked = n.asked ++ (match label with | .add tx => [tx] | _ => [])
  appSent : n'.appSent = n.appSent ++
    (match label with | .app app _ => (n.posted label).map (fun msg => (app, msg)) | _ => [])

theorem handle_or_idle (label : Label) :
    (∃ around, label = .handle around) ∨ ∀ around, label ≠ .handle around := by
  cases label with
  | handle around => exact .inl ⟨around, rfl⟩
  | add | gossip | remove | take | appRemove | appTake | forward | app => simp

theorem frame_step {config : MempoolConfig} {n n' : Node} {label : Label}
    (idle : ∀ around, label ≠ .handle around) (h : step config n label = some n') :
    Frame n n' label := by
  cases label with
  | handle around => exact absurd rfl (idle around)
  | add tx | gossip event | remove hashes | take reply =>
      obtain rfl := Option.some.inj h
      exact ⟨rfl, rfl, rfl, rfl, by simp [post], by simp [post]⟩
  | appRemove app hashes | appTake app reply =>
      obtain ⟨box, _, rfl⟩ := postApp_cases h
      exact ⟨rfl, rfl, rfl, by simp [posted], by simp, by simp⟩
  | forward app =>
      obtain ⟨got, port, _, outcome⟩ := forward_cases h
      rcases outcome with ⟨_, rfl⟩ | ⟨_, _, _, _, rfl⟩ <;>
        exact ⟨rfl, rfl, rfl, by simp [posted, setPort], by simp [setPort], by simp [setPort]⟩
  | app app check =>
      obtain ⟨msg, rest, present, rfl⟩ := app_cases h
      exact ⟨rfl, rfl, rfl, by simp [posted, post, present], by simp [post],
        by simp [posted, present]⟩

/-- Every message ever put into the mempool's mailbox, in order. -/
def received (n : Node) : List Msg := n.pool.log.map Record.msg ++ n.mailbox

theorem received_step {config : MempoolConfig} {n n' : Node} {label : Label}
    (h : step config n label = some n') : n'.received = n.received ++ n.posted label := by
  rcases handle_or_idle label with ⟨around, rfl⟩ | idle
  · obtain ⟨msg, rest, handled, waiting, _, rfl⟩ := handle_cases h
    simp [received, posted, waiting]
  · have frame := frame_step idle h
    rw [received, frame.log, frame.mailbox, ← List.append_assoc, received]

theorem appHandle_check (check : RawTx → AppResult) (msg : AppMsg) :
    (appHandle check msg).check = msg.check := by
  cases msg with
  | mempoolEvent event => cases event; rfl
  | take reply => rfl
  | remove hashes => rfl

theorem checks_postApp {n n' : Node} {app : Nat} {msg : AppMsg} (h : n.postApp app msg = some n') :
    (n'.checks : Multiset Check) = n.checks + (msg.check.toList : List Check) ∧
      n'.port = n.port := by
  obtain ⟨box, present, rfl⟩ := postApp_cases h
  refine ⟨?_, rfl⟩
  have put := flatMap_set_put (fun box : List AppMsg => box.filterMap AppMsg.check) present
    (filterMap_last AppMsg.check box msg)
  rw [checks_eq, checks_eq]
  simp only [Node.port, put]
  abel

theorem accounts_forward {config : MempoolConfig} {n n' : Node} {app : Nat}
    (h : step config n (.forward app) = some n') :
    (n'.checks : Multiset Check) = n.checks ∧ (n'.lost : Multiset Check) = n.lost := by
  obtain ⟨got, port, received, outcome⟩ := forward_cases h
  obtain ⟨moved, sameMissed, _, _, _⟩ := Channel.recv_accounts received
  have sameLost : (port.missed : Multiset Event).map Event.check = n.lost := by
    rw [sameMissed, lost_eq]
  rcases outcome with ⟨rfl, rfl⟩ | ⟨event, box, rfl, present, rfl⟩
  · refine ⟨?_, by simpa [lost_eq, setPort, Node.port] using sameLost⟩
    rw [checks_eq, checks_eq, moved]
    simp [setPort, Node.port]
  · refine ⟨?_, by simpa [lost_eq, setPort, Node.port] using sameLost⟩
    have put := flatMap_set_put (fun box : List AppMsg => box.filterMap AppMsg.check) present
      (filterMap_last AppMsg.check box (.mempoolEvent event))
    rw [checks_eq, checks_eq, moved]
    simp only [setPort, Node.port, put, AppMsg.check, Multiset.map_add, Option.toList_some,
      Multiset.coe_singleton, Multiset.map_singleton]
    abel

theorem accounts_app {config : MempoolConfig} {n n' : Node} {app : Nat}
    {check : RawTx → AppResult} (h : step config n (.app app check) = some n') :
    (n'.checks : Multiset Check) = n.checks ∧ n'.port = n.port := by
  obtain ⟨msg, rest, present, rfl⟩ := app_cases h
  refine ⟨?_, rfl⟩
  have taken := flatMap_set_take (fun box : List AppMsg => box.filterMap AppMsg.check) present
    (filterMap_first AppMsg.check msg rest)
  rw [checks_eq, checks_eq, taken]
  simp only [post, Node.port, filterMap_last, appHandle_check]
  abel

theorem accounts_handle {config : MempoolConfig} {n n' : Node} {around : Surroundings}
    (settled : Msg.subscribe ∉ n.mailbox) (h : step config n (.handle around) = some n') :
    (n'.checks : Multiset Check) + n'.lost + n.returned (.handle around) =
      (n.checks : Multiset Check) + n.lost + n.admitted config (.handle around) := by
  obtain ⟨msg, rest, handled, waiting, took, rfl⟩ := handle_cases h
  have wired := head_ne_subscribe settled waiting
  obtain ⟨_, _, port⟩ := handleMsg_outside took wired
  have popped : (n.mailbox.filterMap Msg.check : Multiset Check) =
      (msg.check.toList : List Check) + (rest.filterMap Msg.check : List Check) := by
    rw [waiting, filterMap_first]
  rw [checks_eq, checks_eq, lost_eq, lost_eq, popped]
  simp only [returned, admitted, waiting, List.head?_cons, Option.bind_some]
  cases submits : msg.submission with
  | none =>
      simp only [submits] at port
      simp only [Node.port, port]
      abel
  | some check =>
      simp only [submits] at port
      by_cases full : config.maxPoolSize ≤ n.pool.state.txs.length
      · simp only [full, if_true] at port
        simp only [Node.port, port, full, if_true]
        abel
      · simp only [full, if_false, outputPort_send] at port
        have balance := congrArg (Multiset.map Event.check)
          (Channel.send_accounts n.port (.checkTx check.1 check.2))
        simp only [Multiset.map_add, Multiset.map_replicate, Event.check] at balance
        simp only [Node.port, port, full, if_false]
        calc
          _ = ((n.port.send (.checkTx check.1 check.2)).waiting : Multiset Event).map Event.check +
              ((n.port.send (.checkTx check.1 check.2)).missed : Multiset Event).map Event.check +
              ((n.apps.flatMap (fun box => box.filterMap AppMsg.check) : List Check) +
                (rest.filterMap Msg.check : List Check) + (msg.check.toList : List Check)) := by
            rw [outputPort_send]
            abel
          _ = _ := by
            rw [outputPort_send, balance]
            abel

/-- The balance of one step. -/
theorem accounts_step {config : MempoolConfig} {n n' : Node} {label : Label}
    (settled : Msg.subscribe ∉ n.mailbox) (h : step config n label = some n') :
    (n'.checks : Multiset Check) + n'.lost + n.returned label =
      (n.checks : Multiset Check) + n.lost + n.admitted config label := by
  cases label with
  | handle around => exact accounts_handle settled h
  | forward app =>
      obtain ⟨checks, lost⟩ := accounts_forward h
      simp [checks, lost, returned, admitted]
  | app app check =>
      obtain ⟨checks, port⟩ := accounts_app h
      simp [checks, Node.lost, port, returned, admitted]
  | appRemove app hashes | appTake app reply =>
      obtain ⟨checks, port⟩ := checks_postApp h
      simp [checks, Node.lost, port, returned, admitted, AppMsg.check]
  | add tx | gossip event | remove hashes | take reply =>
      obtain rfl := Option.some.inj h
      simp only [checks_eq, lost_eq, post, Node.port, filterMap_last, Msg.check, returned, admitted,
        Option.toList_none, Multiset.coe_nil, zero_add, add_zero]

/-- A step either leaves what was missed alone, or publishes one event. -/
theorem publish_cases {config : MempoolConfig} {n n' : Node} {label : Label}
    (settled : Msg.subscribe ∉ n.mailbox) (h : step config n label = some n') :
    ((n'.lost : Multiset Check) = n.lost ∧ n'.port.capacity = n.port.capacity ∧
        n.published config label = none) ∨
      ∃ event, n'.port = Broadcast.Channel.send n.port event ∧
        n.published config label = some event.check := by
  cases label with
  | add tx | gossip event | remove hashes | take reply =>
      obtain rfl := Option.some.inj h
      exact .inl ⟨rfl, rfl, rfl⟩
  | appRemove app hashes | appTake app reply =>
      obtain ⟨_, port⟩ := checks_postApp h
      exact .inl ⟨by simp only [lost, port], by rw [port], rfl⟩
  | app app check =>
      obtain ⟨_, port⟩ := accounts_app h
      exact .inl ⟨by simp only [lost, port], by rw [port], rfl⟩
  | forward app =>
      refine .inl ⟨(accounts_forward h).2, ?_, rfl⟩
      obtain ⟨got, port, received, outcome⟩ := forward_cases h
      obtain ⟨_, _, sameCapacity, _, _⟩ := Channel.recv_accounts received
      rcases outcome with ⟨_, rfl⟩ | ⟨_, _, _, _, rfl⟩ <;> exact sameCapacity
  | handle around =>
      obtain ⟨msg, rest, handled, waiting, took, rfl⟩ := handle_cases h
      have wired := head_ne_subscribe settled waiting
      obtain ⟨_, _, port⟩ := handleMsg_outside took wired
      simp only [published, waiting, List.head?_cons, Option.bind_some, lost, Node.port]
      cases submits : msg.submission with
      | none =>
          simp only [submits] at port
          exact .inl ⟨by rw [port], by rw [port], by simp⟩
      | some check =>
          simp only [submits] at port
          by_cases full : config.maxPoolSize ≤ n.pool.state.txs.length
          · simp only [full, if_true] at port
            exact .inl ⟨by rw [port], by rw [port], if_pos full⟩
          · simp only [full, if_false, outputPort_send] at port
            exact .inr ⟨.checkTx check.1 check.2, port, if_neg full⟩

theorem port_cases {config : MempoolConfig} {n n' : Node} {label : Label}
    (settled : Msg.subscribe ∉ n.mailbox) (h : step config n label = some n') :
    ((n'.lost : Multiset Check) = n.lost ∧ n'.port.capacity = n.port.capacity ∧
        n.admitted config label = 0) ∨
      ∃ event, n'.port = Broadcast.Channel.send n.port event ∧
        n.admitted config label = Multiset.replicate n.port.receivers.length event.check := by
  rcases publish_cases settled h with ⟨sameLost, sameCapacity, quiet⟩ | ⟨event, port, publishes⟩
  · exact .inl ⟨sameLost, sameCapacity, by rw [admitted_eq, quiet]; rfl⟩
  · exact .inr ⟨event, port, by rw [admitted_eq, publishes]; rfl⟩

/-! ## Invariants that hold for any number of subscribers -/

theorem appHandle_ne_subscribe (check : RawTx → AppResult) (msg : AppMsg) :
    appHandle check msg ≠ .subscribe := by
  cases msg with
  | mempoolEvent event => cases event; simp [appHandle]
  | take reply => simp [appHandle]
  | remove hashes => simp [appHandle]

theorem Wired.step {config : MempoolConfig} {n n' : Node} {label : Label} {subscribers : Nat}
    (wired : n.Wired subscribers) (h : step config n label = some n') : n'.Wired subscribers := by
  obtain ⟨receivers, apps, settled⟩ := wired
  cases label with
  | add tx | gossip event | remove hashes | take reply =>
      obtain rfl := Option.some.inj h
      exact ⟨receivers, apps, by simpa [post] using settled⟩
  | appRemove app hashes | appTake app reply =>
      obtain ⟨box, _, rfl⟩ := postApp_cases h
      exact ⟨receivers, by simpa using apps, settled⟩
  | forward app =>
      obtain ⟨got, port, received, outcome⟩ := forward_cases h
      obtain ⟨_, _, _, sameLength, _⟩ := Channel.recv_accounts received
      rcases outcome with ⟨_, rfl⟩ | ⟨_, _, _, _, rfl⟩
      · exact ⟨sameLength.trans receivers, apps, settled⟩
      · exact ⟨sameLength.trans receivers, by simpa using apps, settled⟩
  | app app check =>
      obtain ⟨msg, rest, _, rfl⟩ := app_cases h
      refine ⟨receivers, by simpa using apps, ?_⟩
      simpa [post, settled] using (appHandle_ne_subscribe check msg).symm
  | handle around =>
      obtain ⟨msg, rest, handled, waiting, took, rfl⟩ := handle_cases h
      rw [waiting, List.mem_cons, not_or] at settled
      obtain ⟨_, _, port⟩ := handleMsg_outside took (Ne.symm settled.1)
      refine ⟨?_, apps, settled.2⟩
      simp only [Node.port] at receivers ⊢
      rw [port]
      cases submits : msg.submission with
      | none => exact receivers
      | some check =>
          simp only [outputPort_send]
          split
          · exact receivers
          · rw [Channel.send_receivers_length]
            exact receivers

/-- The output port has lost nothing and never will. -/
structure Lossless (n : Node) : Prop where
  unbounded : n.port.capacity = none
  none_lost : n.lost = []

theorem lossless_start (subscribers : Nat) : (start OutputPort.unbounded subscribers).Lossless :=
  ⟨rfl, by simp [lost, start, Node.port, History.init, OutputPort.subscribed, Channel.missed]⟩

theorem Lossless.step {config : MempoolConfig} {n n' : Node} {label : Label}
    (lossless : n.Lossless) (settled : Msg.subscribe ∉ n.mailbox)
    (h : step config n label = some n') : n'.Lossless := by
  rcases port_cases settled h with ⟨sameLost, sameCapacity, _⟩ | ⟨event, port, _⟩
  · refine ⟨sameCapacity.trans lossless.unbounded, ?_⟩
    rw [lossless.none_lost, Multiset.coe_nil, Multiset.coe_eq_zero] at sameLost
    exact sameLost
  · refine ⟨?_, ?_⟩
    · rw [port, Channel.send_capacity, lossless.unbounded]
    · rw [lost, port, Channel.send_lossless lossless.unbounded]
      exact lossless.none_lost

theorem sound_handle {config : MempoolConfig} {n n' : Node} {around : Surroundings} {msg : Msg}
    {rest : List Msg} {queue : List (TxHash × RawTx)} (sound : Sound n.pool queue)
    (waiting : n.mailbox = msg :: rest) (h : step config n (.handle around) = some n') :
    Sound n'.pool (nextQueue around.order msg n.pool.state queue) := by
  obtain ⟨next, ran, sound'⟩ := sound.handle config (n.env around) msg
  simp only [step, waiting, ran, Option.map_some, Option.some.injEq] at h
  subst h
  exact sound'

theorem Frame.sound {n n' : Node} {label : Label} {queue : List (TxHash × RawTx)}
    (frame : Frame n n' label) (sound : Sound n.pool queue) : Sound n'.pool queue := by
  constructor
  · rw [frame.txs, frame.txHashes]
    exact sound.represents
  · rw [frame.log]
    exact sound.recent

theorem sound_step {config : MempoolConfig} {n n' : Node} {label : Label}
    (sound : ∃ queue, Sound n.pool queue) (h : step config n label = some n') :
    ∃ queue, Sound n'.pool queue := by
  obtain ⟨queue, sound⟩ := sound
  rcases handle_or_idle label with ⟨around, rfl⟩ | idle
  · obtain ⟨msg, rest, _, waiting, _, _⟩ := handle_cases h
    exact ⟨_, sound_handle sound waiting h⟩
  · exact ⟨queue, (frame_step idle h).sound sound⟩

/-- Every record of the log was made by the handler. -/
theorem faithful_step {config : MempoolConfig} {n n' : Node} {label : Label}
    (settled : Msg.subscribe ∉ n.mailbox) (faithful : ∀ r ∈ n.pool.log, r.Faithful config)
    (h : step config n label = some n') : ∀ r ∈ n'.pool.log, r.Faithful config := by
  rcases handle_or_idle label with ⟨around, rfl⟩ | idle
  · obtain ⟨msg, rest, handled, waiting, took, rfl⟩ := handle_cases h
    intro r member
    rcases List.mem_append.mp member with old | new
    · exact faithful r old
    · obtain rfl := List.mem_singleton.mp new
      have wired := head_ne_subscribe settled waiting
      exact ⟨wired, n.env around, handled, took, rfl, rfl⟩
  · rw [(frame_step idle h).log]
    exact faithful

end Node

end MalachiteMempool
