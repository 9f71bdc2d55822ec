import MalachiteMempool.Node.Steps

/-! # Where the reply ports are

Every reply port is accounted for from the moment its `Add` is sent: waiting
in the mailbox, with a check under way, with an overwritten event, or with a
handled message that is done with it.  An event is copied to every subscriber,
so with several of them a port is in that many places after it was published.

With one subscriber the result that comes back holds the only reference, and
no reply is skipped.
-/

namespace MalachiteMempool

open Host Broadcast

/-- The reply port of a check, with its transaction. -/
def token (check : Check) : Option (PortId × RawTx) := check.2.map (fun port => (port, check.1))

namespace Msg

def request : Msg → Option (PortId × RawTx)
  | .add tx port => some (port, tx)
  | _ => none

/-- The reply port a check result brings back. -/
def returns (msg : Msg) : Option (PortId × RawTx) := msg.check.bind token

/-- A check result as it was sent. -/
def outcome : Msg → Option (RawTx × AppResult × Option PortId)
  | .checkTxResult tx result reply => some (tx, result, reply)
  | _ => none

end Msg

namespace Record

/-- The reply port of an `Add` that met a full pool. -/
def refuses (config : MempoolConfig) (r : Record) : Option (PortId × RawTx) :=
  if config.maxPoolSize ≤ r.before.txs.length then r.msg.request else none

def returns (r : Record) : Option (PortId × RawTx) := r.msg.returns

end Record

/-- Every app checks with the same function. -/
def Label.ChecksWith (check : RawTx → AppResult) : Label → Prop
  | .app _ used => used = check
  | _ => True

namespace Node

/-- The port of every `Add` ever sent, with its transaction. -/
def issued (n : Node) : List (PortId × RawTx) := n.asked.zipIdx.map Prod.swap

/-- Every place where a reply port can be, weighed by the number of copies its
    event will have or has had. -/
def custody (config : MempoolConfig) (copies : Nat) (n : Node) : Multiset (PortId × RawTx) :=
  copies • ((n.mailbox.filterMap Msg.request : List _) : Multiset (PortId × RawTx)) +
    ((n.checks : Multiset Check) + n.lost).filterMap token +
    ((n.pool.log.filterMap Record.returns : List _) +
      copies • ((n.pool.log.filterMap (Record.refuses config) : List _) : Multiset (PortId × RawTx)))

@[simp] theorem filterMap_token (check : Check) :
    Multiset.filterMap token {check} = ((token check).toList : List (PortId × RawTx)) := by
  rw [← Multiset.coe_singleton, Multiset.filterMap_coe, filterMap_first]
  simp

@[simp] theorem filterMap_token_replicate (copies : Nat) (check : Check) :
    Multiset.filterMap token (Multiset.replicate copies check) =
      copies • ((token check).toList : Multiset (PortId × RawTx)) := by
  induction copies with
  | zero => simp
  | succ copies ih =>
      rw [Multiset.replicate_succ, ← Multiset.singleton_add, Multiset.filterMap_add, ih,
        filterMap_token, succ_nsmul']

/-- What a handled message takes from the mailbox and from the checks under way
    is what it admits, refuses or brings back. -/
theorem custody_balance (config : MempoolConfig) {n : Node} {copies : Nat} (wired : n.Wired copies)
    {msg : Msg} {rest : List Msg} (waiting : n.mailbox = msg :: rest) (around : Surroundings)
    (after : State) (effects : List Effect) :
    let record : Record := ⟨n.pool.state, msg, after, effects⟩
    (record.returns.toList : Multiset (PortId × RawTx)) +
        copies • ((record.refuses config).toList : Multiset (PortId × RawTx)) +
        (n.admitted config (.handle around)).filterMap token =
      copies • (msg.request.toList : Multiset (PortId × RawTx)) +
        (n.returned (.handle around)).filterMap token := by
  simp only [returned, admitted, waiting, List.head?_cons, Option.bind_some, wired.receivers]
  cases msg with
  | subscribe | take | remove => simp [Record.returns, Record.refuses, Msg.returns, Msg.request,
      Msg.check, Msg.submission]
  | add tx port =>
      by_cases full : config.maxPoolSize ≤ n.pool.state.txs.length <;>
        simp [Record.returns, Record.refuses, Msg.returns, Msg.submission, Msg.request, Msg.check,
          token, full]
  | networkEvent event =>
      cases event with
      | message channel peer id msg =>
          cases msg with
          | transactionBatch batch =>
              by_cases full : config.maxPoolSize ≤ n.pool.state.txs.length <;>
                simp [Record.returns, Record.refuses, Msg.returns, Msg.submission, Msg.request,
                  Msg.check, token, full]
      | listening | peerConnected | peerDisconnected => simp [Record.returns, Record.refuses,
          Msg.returns, Msg.request, Msg.check, Msg.submission]
  | checkTxResult tx result reply =>
      cases reply <;>
        simp [Record.returns, Record.refuses, Msg.returns, Msg.submission, Msg.request, Msg.check,
          token]

/-- Outside the mempool only an `Add` makes a request. -/
theorem posted_requests (n : Node) (label : Label) :
    (n.posted label).filterMap Msg.request =
      match label with | .add tx => [(n.asked.length, tx)] | _ => [] := by
  cases label with
  | add | gossip | remove | take | appRemove | appTake | handle | forward => rfl
  | app app check =>
      simp only [posted]
      split
      · rename_i msg rest present
        cases msg with
        | mempoolEvent event => cases event; rfl
        | take reply => rfl
        | remove hashes => rfl
      · rfl

theorem requested_countP {n : Node} {port : PortId} :
    (∃ tx, .add tx port ∈ n.mailbox) ↔
      0 < (n.mailbox.filterMap Msg.request).countP (fun t => t.1 == port) := by
  rw [List.countP_pos_iff]
  constructor
  · intro ⟨tx, waiting⟩
    exact ⟨(port, tx), List.mem_filterMap.mpr ⟨_, waiting, rfl⟩, by simp⟩
  · intro ⟨⟨port', tx⟩, member, same⟩
    obtain ⟨msg, waiting, requests⟩ := List.mem_filterMap.mp member
    obtain rfl : port' = port := by simpa using same
    cases msg with
    | add tx' port =>
        obtain ⟨rfl, rfl⟩ := Prod.mk.inj (Option.some.inj requests)
        exact ⟨tx', waiting⟩
    | subscribe | networkEvent | checkTxResult | take | remove => cases requests

theorem issued_step {config : MempoolConfig} {n n' : Node} {label : Label}
    (h : step config n label = some n') :
    n'.issued = n.issued ++ (n.posted label).filterMap Msg.request := by
  rw [posted_requests]
  rcases handle_or_idle label with ⟨around, rfl⟩ | idle
  · obtain ⟨msg, rest, handled, _, _, rfl⟩ := handle_cases h
    simp [issued]
  · have frame := frame_step idle h
    simp only [issued, frame.asked, List.zipIdx_append, List.map_append, Nat.zero_add]
    cases label <;> rfl

private theorem exchange {A : Type*} [AddCancelCommMonoid A]
    {requests checks lost settled checks' lost' request settles admits returns total : A}
    (before : request + requests + (checks + lost) + settled = total)
    (moved : checks' + lost' + returns = checks + lost + admits)
    (balance : settles + admits = request + returns) :
    requests + (checks' + lost') + (settles + settled) = total := by
  apply add_right_cancel (b := returns)
  calc
    requests + (checks' + lost') + (settles + settled) + returns
      = requests + (checks' + lost' + returns) + (settles + settled) := by abel
    _ = requests + (checks + lost) + settled + (settles + admits) := by rw [moved]; abel
    _ = request + requests + (checks + lost) + settled + returns := by rw [balance]; abel
    _ = total + returns := by rw [before]

theorem custody_step {config : MempoolConfig} {copies : Nat} {n n' : Node} {label : Label}
    (wired : n.Wired copies)
    (custody : n.custody config copies = copies • (n.issued : Multiset (PortId × RawTx)))
    (h : step config n label = some n') :
    n'.custody config copies = copies • (n'.issued : Multiset (PortId × RawTx)) := by
  have balance := congrArg (Multiset.filterMap token) (accounts_step wired.settled h)
  have issues := issued_step h
  simp only [Multiset.filterMap_add] at balance
  simp only [Node.custody, Multiset.filterMap_add] at custody ⊢
  rcases handle_or_idle label with ⟨around, rfl⟩ | idle
  · obtain ⟨msg, rest, handled, waiting, took, rfl⟩ := handle_cases h
    have moved := custody_balance config wired waiting around handled.state handled.effects
    rw [waiting, filterMap_first, nsmul_add] at custody
    simp only [posted, List.filterMap_nil, List.append_nil] at issues
    rw [issues, filterMap_last, filterMap_last, nsmul_add, ← exchange custody balance moved]
    abel
  · have frame := frame_step idle h
    obtain ⟨returnsNone, admitsNone⟩ :
      n.returned label = 0 ∧ n.admitted config label = 0 := unmoved_of_idle idle
    simp only [returnsNone, admitsNone, Multiset.filterMap_zero, add_zero] at balance
    rw [frame.log, frame.mailbox, List.filterMap_append, issues, ← Multiset.coe_add,
      ← Multiset.coe_add, nsmul_add, nsmul_add, ← custody, balance]
    abel

theorem mem_issued {n : Node} {port : PortId} {tx : RawTx} :
    (port, tx) ∈ n.issued ↔ n.asked[port]? = some tx := by
  simp only [issued, List.mem_map, Prod.exists, Prod.swap_prod_mk, Prod.mk.injEq]
  constructor
  · rintro ⟨tx', port', member, rfl, rfl⟩
    exact List.mem_zipIdx_iff_getElem?.mp member
  · intro found
    exact ⟨tx, port, List.mem_zipIdx_iff_getElem?.mpr found, rfl, rfl⟩

theorem countP_issued (n : Node) (port : PortId) :
    n.issued.countP (fun t => t.1 == port) = if port < n.asked.length then 1 else 0 := by
  have ports : n.issued.map Prod.fst = List.range n.asked.length := by
    simp [issued, Function.comp_def, List.range_eq_range']
  have counted : n.issued.countP (fun t => t.1 == port) = (n.issued.map Prod.fst).count port := by
    rw [List.count, List.countP_map]
    rfl
  rw [counted, ports, List.nodup_range.count]
  simp

/-- The check results an app step sends are those it posts. -/
theorem outcomes_step {config : MempoolConfig} {n n' : Node} {label : Label}
    (h : step config n label = some n') :
    (n'.appSent.map Prod.snd).filterMap Msg.outcome =
      (n.appSent.map Prod.snd).filterMap Msg.outcome ++ (n.posted label).filterMap Msg.outcome := by
  rcases handle_or_idle label with ⟨around, rfl⟩ | idle
  · obtain ⟨msg, rest, handled, _, _, rfl⟩ := handle_cases h
    simp [posted]
  · have frame := frame_step idle h
    rw [frame.appSent]
    cases label with
    | handle around => exact absurd rfl (idle around)
    | add | gossip | remove | take | appRemove | appTake | forward =>
        simp [posted, Msg.outcome]
    | app app check => simp [Function.comp_def]

/-- What holds of a node with this many subscribers, whatever its output port. -/
structure Tracked (config : MempoolConfig) (copies : Nat) (n : Node) : Prop where
  wired : n.Wired copies
  custody : n.custody config copies = copies • (n.issued : Multiset (PortId × RawTx))
  faithful : ∀ r ∈ n.pool.log, r.Faithful config
  requests : n.received.filterMap Msg.request = n.issued
  outcomes : (n.appSent.map Prod.snd).filterMap Msg.outcome = n.received.filterMap Msg.outcome

theorem tracked_start (config : MempoolConfig) (port : OutputPort) (copies : Nat) :
    (start port copies).Tracked config copies where
  wired := wired_start port copies
  custody := by
    simp [Node.custody, checks, lost, issued, start, Node.port, History.init,
      OutputPort.subscribed, Channel.waiting, Channel.missed]
  faithful := by simp [start, History.init]
  requests := rfl
  outcomes := rfl

namespace Tracked

variable {config : MempoolConfig} {copies : Nat} {n : Node}

theorem step {n' : Node} {label : Label} (tracked : n.Tracked config copies)
    (h : Node.step config n label = some n') : n'.Tracked config copies where
  wired := tracked.wired.step h
  custody := custody_step tracked.wired tracked.custody h
  faithful := faithful_step tracked.wired.settled tracked.faithful h
  requests := by
    rw [received_step h, List.filterMap_append, tracked.requests, issued_step h]
  outcomes := by
    rw [received_step h, List.filterMap_append, outcomes_step h, tracked.outcomes]

/-- Every port that was issued is in as many places as there are subscribers,
    where a request and a refusal count for all of them. -/
theorem port_places (tracked : n.Tracked config copies) (port : PortId) :
    copies * (n.mailbox.filterMap Msg.request).countP (fun t => t.1 == port) + n.refs port +
        n.lost.countP (fun check => check.2 == some port) +
        ((n.pool.log.filterMap Record.returns).countP (fun t => t.1 == port) +
          copies * (n.pool.log.filterMap (Record.refuses config)).countP (fun t => t.1 == port)) =
      if port < n.asked.length then copies else 0 := by
  have counted := congrArg (Multiset.countP (fun t => (t.1 == port) = true)) tracked.custody
  have held : ∀ checks : List Check, (checks.filterMap token).countP (fun t => t.1 == port) =
      checks.countP (fun check => check.2 == some port) := by
    intro checks
    rw [List.countP_filterMap]
    apply List.countP_congr
    intro check _
    obtain ⟨tx, reply⟩ := check
    cases reply <;> simp [token]
  simp only [Node.custody, Multiset.filterMap_coe, Multiset.coe_add, Multiset.coe_countP,
    Multiset.countP_add, Multiset.countP_nsmul, List.countP_append, Bool.decide_eq_true, held,
    countP_issued, mul_ite, mul_one, mul_zero] at counted
  rw [← counted, refs]
  omega

theorem asked_of_custody (tracked : n.Tracked config copies) {port : PortId} {tx : RawTx}
    (held : (port, tx) ∈ n.custody config copies) : n.asked[port]? = some tx := by
  rw [tracked.custody] at held
  exact mem_issued.mp (Multiset.mem_of_mem_nsmul held)

theorem asked_of_returned (tracked : n.Tracked config copies) {port : PortId} {tx : RawTx}
    (returned : (port, tx) ∈ n.pool.log.filterMap Record.returns) : n.asked[port]? = some tx := by
  apply tracked.asked_of_custody
  simp only [Node.custody, Multiset.mem_add, Multiset.mem_coe]
  exact .inr (.inl returned)

/-- An `Add` is handled once, and waits in the mailbox until then. -/
theorem request_once (tracked : n.Tracked config copies) (port : PortId) :
    ((n.pool.log.map Record.msg).filterMap Msg.request).countP (fun t => t.1 == port) +
        (n.mailbox.filterMap Msg.request).countP (fun t => t.1 == port) =
      if port < n.asked.length then 1 else 0 := by
  rw [← countP_issued, ← tracked.requests, received, List.filterMap_append, List.countP_append]

theorem handled_or_waiting (tracked : n.Tracked config copies) {port : PortId} {tx : RawTx}
    (asked : n.asked[port]? = some tx) :
    (∃ r ∈ n.pool.log, r.msg = .add tx port) ∨ .add tx port ∈ n.mailbox := by
  have member := mem_issued.mpr asked
  rw [← tracked.requests, received, List.mem_filterMap] at member
  obtain ⟨msg, inside, requests⟩ := member
  have isAdd : msg = .add tx port := by
    cases msg with
    | add tx' port' =>
        obtain ⟨rfl, rfl⟩ := Prod.mk.inj (Option.some.inj requests)
        rfl
    | subscribe | networkEvent | checkTxResult | take | remove => cases requests
  subst isAdd
  rcases List.mem_append.mp inside with old | waiting
  · obtain ⟨r, inLog, isMsg⟩ := List.mem_map.mp old
    exact .inl ⟨r, inLog, isMsg⟩
  · exact .inr waiting

/-- A check under way holds a reference to its reply port. -/
theorem refs_pos {port : PortId} {tx : RawTx} (held : (tx, some port) ∈ n.checks) :
    0 < n.refs port :=
  List.countP_pos_iff.mpr ⟨_, held, by simp⟩

end Tracked

theorem run_tracked {config : MempoolConfig} {port : OutputPort} {copies : Nat}
    {labels : List Label} {n : Node}
    (ran : (system config).run (start port copies) labels = some n) : n.Tracked config copies :=
  (system config).run_induction (fun _ _ _ tracked h => tracked.step h)
    (tracked_start config port copies) ran

/-- All check results that were sent come from this check. -/
def Checked (check : RawTx → AppResult) (n : Node) : Prop :=
  ∀ tx result reply, .checkTxResult tx result reply ∈ n.received → result = check tx

theorem Checked.step {config : MempoolConfig} {check : RawTx → AppResult} {n n' : Node}
    {label : Label} (deterministic : label.ChecksWith check) (checked : n.Checked check)
    (h : step config n label = some n') : n'.Checked check := by
  intro tx result reply member
  rw [received_step h] at member
  rcases List.mem_append.mp member with old | new
  · exact checked tx result reply old
  · cases label with
    | add | gossip | remove | take | appRemove | appTake | handle | forward =>
        simp [posted] at new
    | app app used =>
        obtain rfl : used = check := deterministic
        simp only [posted] at new
        split at new
        · rename_i msg rest present
          cases msg with
          | mempoolEvent event =>
              cases event with
              | checkTx tx' reply' =>
                  simp only [appHandle, List.mem_singleton, Msg.checkTxResult.injEq] at new
                  obtain ⟨rfl, rfl, rfl⟩ := new
                  rfl
          | take reply' => simp [appHandle] at new
          | remove hashes => simp [appHandle] at new
        · cases new

theorem run_checked {config : MempoolConfig} {check : RawTx → AppResult} {port : OutputPort}
    {copies : Nat} {labels : List Label} {n : Node}
    (deterministic : ∀ label ∈ labels, label.ChecksWith check)
    (ran : (system config).run (start port copies) labels = some n) : n.Checked check := by
  have initial : (start port copies).Checked check := by
    intro tx result reply member
    cases member
  exact (system config).run_invariant (fun _ _ _ => Checked.step) deterministic initial ran

theorem run_lossless {config : MempoolConfig} {copies : Nat} {labels : List Label} {n : Node}
    (ran : (system config).run (start OutputPort.unbounded copies) labels = some n) :
    n.Lossless := by
  have preserved : ∀ s a next, s.Wired copies ∧ s.Lossless →
      (system config).step s a = some next → next.Wired copies ∧ next.Lossless :=
    fun _ _ _ holds h => ⟨holds.1.step h, holds.2.step holds.1.settled h⟩
  exact ((system config).run_induction preserved
    ⟨wired_start _ copies, lossless_start copies⟩ ran).2

/-! ## One subscriber -/

theorem mem_checks_of_result {n : Node} {tx : RawTx} {result : AppResult} {reply : Option PortId}
    (waiting : .checkTxResult tx result reply ∈ n.mailbox) : (tx, reply) ∈ n.checks := by
  simp only [checks, List.mem_append, List.mem_filterMap]
  exact .inr ⟨_, waiting, rfl⟩

/-- Everything sent on reply ports so far. -/
def replies (n : Node) : List (PortId × Except MempoolError CheckTxOutcome) :=
  n.pool.log.flatMap Record.replies

/-- When no port is shared, exactly the refused and the returned ports are
    answered. -/
theorem countP_repliesTo (config : MempoolConfig) (r : Record) (port : PortId) :
    (repliesTo config (fun _ => 1) r.msg r.before).countP (fun reply => reply.1 == port) =
      r.returns.toList.countP (fun t => t.1 == port) +
        (r.refuses config).toList.countP (fun t => t.1 == port) := by
  unfold Record.returns Record.refuses Msg.returns
  cases r.msg with
  | subscribe | networkEvent | take | remove =>
      simp [repliesTo, Msg.check, Msg.request]
  | add tx reply =>
      by_cases full : config.maxPoolSize ≤ r.before.txs.length <;>
        simp [repliesTo, Msg.check, Msg.request, full, List.countP_cons]
  | checkTxResult tx result reply =>
      cases reply <;> simp [repliesTo, Msg.check, Msg.request, token, List.countP_cons]

/-- A node with one subscriber. -/
structure Single (config : MempoolConfig) (n : Node) : Prop extends n.Tracked config 1 where
  /-- No reply was skipped because its port was shared. -/
  answers : ∀ r ∈ n.pool.log, r.replies = repliesTo config (fun _ => 1) r.msg r.before

theorem single_start (config : MempoolConfig) (port : OutputPort) :
    (start port 1).Single config :=
  ⟨tracked_start config port 1, by simp [start, History.init]⟩

namespace Single

variable {config : MempoolConfig} {n : Node}

theorem replies_countP (single : n.Single config) (port : PortId) :
    n.replies.countP (fun reply => reply.1 == port) =
      (n.pool.log.filterMap Record.returns).countP (fun t => t.1 == port) +
        (n.pool.log.filterMap (Record.refuses config)).countP (fun t => t.1 == port) := by
  have answers := single.answers
  unfold Node.replies
  simp only [List.filterMap_eq_flatMap_toList]
  generalize n.pool.log = log at answers ⊢
  induction log with
  | nil => rfl
  | cons r rest ih =>
      have here := countP_repliesTo config r port
      rw [← answers r (by simp)] at here
      have later := ih (fun r' member => answers r' (List.mem_cons_of_mem r member))
      simp only [List.flatMap_cons, List.countP_append] at *
      omega

/-- A reply port that was issued is in exactly one place or used exactly once,
    and any other neither. -/
theorem port_once (single : n.Single config) (port : PortId) :
    (n.mailbox.filterMap Msg.request).countP (fun t => t.1 == port) + n.refs port +
        n.lost.countP (fun check => check.2 == some port) +
        n.replies.countP (fun reply => reply.1 == port) =
      if port < n.asked.length then 1 else 0 := by
  rw [single.replies_countP]
  simpa only [one_mul] using single.port_places port

/-- The result at the head of the mailbox holds the only reference. -/
theorem refs_of_result (single : n.Single config) {tx : RawTx} {result : AppResult}
    {port : PortId} (waiting : .checkTxResult tx result (some port) ∈ n.mailbox) :
    n.refs port = 1 := by
  have atLeast := Tracked.refs_pos (mem_checks_of_result waiting)
  have once := single.port_once port
  split at once <;> omega

theorem step {n' : Node} {label : Label} (single : n.Single config)
    (h : Node.step config n label = some n') : n'.Single config := by
  refine ⟨single.toTracked.step h, ?_⟩
  rcases handle_or_idle label with ⟨around, rfl⟩ | idle
  · obtain ⟨msg, rest, handled, waiting, took, rfl⟩ := handle_cases h
    have wired := head_ne_subscribe single.wired.settled waiting
    obtain ⟨replies, _, _⟩ := handleMsg_outside took wired
    intro r member
    rcases List.mem_append.mp member with old | new
    · exact single.answers r old
    · obtain rfl := List.mem_singleton.mp new
      simp only [Record.replies, replies]
      cases msg with
      | subscribe | networkEvent | add | take | remove => rfl
      | checkTxResult tx result reply =>
          cases reply with
          | none => rfl
          | some port =>
              have inMailbox : .checkTxResult tx result (some port) ∈ n.mailbox := by simp [waiting]
              simp [repliesTo, env, single.refs_of_result inMailbox]
  · rw [(frame_step idle h).log]
    exact single.answers

end Single

/-- Every run of a node with one subscriber. -/
theorem run_single {config : MempoolConfig} {port : OutputPort} {labels : List Label} {n : Node}
    (ran : (system config).run (start port 1) labels = some n) : n.Single config :=
  (system config).run_induction (fun _ _ _ single h => single.step h) (single_start config port) ran

end Node

end MalachiteMempool
