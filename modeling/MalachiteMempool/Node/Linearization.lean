import MalachiteMempool.Node.Custody
import MalachiteMempool.Node.Replay
import MalachiteMempool.Pool.Fifo

/-! # The app's order is the pool's order

In the host composition check results, removals and reads reach the mempool
only through its one app, while submissions and network events come from
anywhere.  Mailboxes are queues, so the mempool handles the app's messages in
the order in which the app handled their causes, and nothing else changes the
pool.  Replaying the app's messages therefore gives the pool just after the
mempool handled the last of them.
-/

namespace MalachiteMempool

open Host IndexedQueue

namespace Msg

/-- Messages that only the app sends in the host composition. -/
def fromApp : Msg → Bool
  | .checkTxResult .. | .take _ | .remove _ => true
  | _ => false

/-- A removal or a read. -/
def appRequest : Msg → Option Msg
  | .remove hashes => some (.remove hashes)
  | .take reply => some (.take reply)
  | _ => none

end Msg

/-- What a user of the app asks the mempool for. -/
def Host.AppMsg.request : AppMsg → Option Msg
  | .remove hashes => some (.remove (hashes.map TestTxHash.toTxHash))
  | .take reply => some (.take reply)
  | .mempoolEvent _ => none

namespace Label

/-- Nobody but the app sends removals and reads to the mempool. -/
def Hosted : Label → Prop
  | .remove _ | .take _ => False
  | _ => True

def request : Label → Option Msg
  | .appRemove _ hashes => some (.remove (hashes.map TestTxHash.toTxHash))
  | .appTake _ reply => some (.take reply)
  | _ => none

end Label

/-- Messages from elsewhere leave the pool alone. -/
theorem specStep_of_not_fromApp {msg : Msg} (outside : msg.fromApp = false) (pool : PoolMap) :
    specStep pool msg = pool := by
  cases msg with
  | subscribe | networkEvent | add => rfl
  | checkTxResult | take | remove => cases outside

theorem replay_filter_fromApp (msgs : List Msg) :
    replay (msgs.filter Msg.fromApp) = replay msgs := by
  unfold replay
  generalize (fun _ => none : PoolMap) = pool
  induction msgs generalizing pool with
  | nil => rfl
  | cons msg rest ih =>
      cases source : msg.fromApp with
      | true => rw [List.filter_cons_of_pos source, List.foldl_cons, List.foldl_cons, ih]
      | false =>
          rw [List.filter_cons_of_neg (by simp [source]), List.foldl_cons,
            specStep_of_not_fromApp source, ih]

theorem appHandle_fromApp (check : RawTx → AppResult) (msg : AppMsg) :
    (appHandle check msg).fromApp = true := by
  cases msg with
  | mempoolEvent event => cases event; rfl
  | take reply => rfl
  | remove hashes => rfl

theorem appHandle_request (check : RawTx → AppResult) (msg : AppMsg) :
    (appHandle check msg).appRequest = msg.request := by
  cases msg with
  | mempoolEvent event => cases event; rfl
  | take reply => rfl
  | remove hashes => rfl

namespace Node

/-- What the app has sent to the mempool, in the order in which it handled the
    messages that caused it. -/
def sent (n : Node) : List Msg := n.appSent.map Prod.snd

/-- The removals and reads the app has handled, followed by those that wait in
    its mailbox. -/
def appRequests (n : Node) : List Msg :=
  n.sent.filterMap Msg.appRequest ++ n.apps.flatten.filterMap AppMsg.request

theorem sent_step {config : MempoolConfig} {n n' : Node} {label : Label} (hosted : label.Hosted)
    (delivered : n.sent = n.received.filter Msg.fromApp) (h : step config n label = some n') :
    n'.sent = n'.received.filter Msg.fromApp := by
  rw [received_step h, List.filter_append, ← delivered]
  rcases handle_or_idle label with ⟨around, rfl⟩ | idle
  · obtain ⟨msg, rest, handled, _, _, rfl⟩ := handle_cases h
    simp [sent, posted]
  · have frame := frame_step idle h
    cases label with
    | handle around => exact absurd rfl (idle around)
    | remove | take => cases hosted
    | add | gossip | appRemove | appTake | forward =>
        simp [sent, frame.appSent, posted, Msg.fromApp]
    | app app check =>
        obtain ⟨msg, rest, present, _⟩ := app_cases h
        simp [sent, frame.appSent, posted, present, appHandle_fromApp]

theorem run_sent {config : MempoolConfig} {port : OutputPort} {subscribers : Nat}
    {labels : List Label} {n : Node} (hosted : ∀ label ∈ labels, label.Hosted)
    (ran : (system config).run (start port subscribers) labels = some n) :
    n.sent = n.received.filter Msg.fromApp :=
  (system config).run_invariant (fun _ _ _ => sent_step) hosted rfl ran

/-- The app's mailbox is a queue. -/
theorem appRequests_step {config : MempoolConfig} {n n' : Node} {label : Label}
    (wired : n.Wired 1) (h : step config n label = some n') :
    n'.appRequests = n.appRequests ++ label.request.toList := by
  obtain ⟨box, only⟩ := List.length_eq_one_iff.mp wired.apps
  have first : ∀ {app : Nat} {found : List AppMsg}, n.apps[app]? = some found →
      app = 0 ∧ found = box := by
    intro app found present
    rw [only] at present
    cases app with
    | zero => exact ⟨rfl, (Option.some.inj present).symm⟩
    | succ app => cases present
  simp only [appRequests, sent, only]
  cases label with
  | add tx | gossip event | remove hashes | take reply =>
      obtain rfl := Option.some.inj h
      simp [post, only, Label.request]
  | handle around =>
      obtain ⟨msg, rest, handled, _, _, rfl⟩ := handle_cases h
      simp [only, Label.request]
  | appRemove app hashes | appTake app reply =>
      obtain ⟨found, present, rfl⟩ := postApp_cases h
      obtain ⟨rfl, rfl⟩ := first present
      simp [only, Label.request, AppMsg.request]
  | forward app =>
      obtain ⟨got, port, _, outcome⟩ := forward_cases h
      rcases outcome with ⟨_, rfl⟩ | ⟨event, found, _, present, rfl⟩
      · simp [setPort, only, Label.request]
      · obtain ⟨rfl, rfl⟩ := first present
        simp [setPort, only, Label.request, AppMsg.request]
  | app app check =>
      obtain ⟨msg, rest, present, rfl⟩ := app_cases h
      obtain ⟨rfl, rfl⟩ := first present
      have moved := appHandle_request check msg
      cases asks : msg.request <;> simp [only, Label.request, moved, asks]

theorem run_appRequests {config : MempoolConfig} {labels : List Label} {n n' : Node}
    (wired : n.Wired 1) (ran : (system config).run n labels = some n') :
    n'.appRequests = n.appRequests ++ labels.filterMap Label.request := by
  induction labels generalizing n with
  | nil =>
      obtain rfl := Option.some.inj ran
      simp
  | cons label rest ih =>
      obtain ⟨next, taken, ran⟩ := ((system config).run_cons_eq_some).mp ran
      rw [ih (wired.step taken) ran, appRequests_step wired taken, List.append_assoc]
      cases asks : label.request <;> simp [asks]

/-- A record of an app message, and the app messages before it. -/
theorem sent_split {n : Node} (delivered : n.sent = n.received.filter Msg.fromApp)
    {earlier later : List Record} {r : Record} (split : n.pool.log = earlier ++ r :: later)
    (source : r.msg.fromApp = true) :
    ∃ rest, n.sent = (earlier.map Record.msg).filter Msg.fromApp ++ r.msg :: rest := by
  refine ⟨(later.map Record.msg ++ n.mailbox).filter Msg.fromApp, ?_⟩
  rw [delivered, received, split]
  simp [source]

theorem filter_fromApp_length (log : List Record) :
    ((log.map Record.msg).filter Msg.fromApp).length = log.countP (fun r => r.msg.fromApp) := by
  rw [← List.countP_eq_length_filter, List.countP_map]
  rfl

/-- The app messages handled before a record are the first ones sent. -/
theorem sent_take {n : Node} (delivered : n.sent = n.received.filter Msg.fromApp)
    {earlier later : List Record} {r : Record} (split : n.pool.log = earlier ++ r :: later)
    (source : r.msg.fromApp = true) :
    n.sent.take (earlier.countP (fun r => r.msg.fromApp)) =
      (earlier.map Record.msg).filter Msg.fromApp := by
  obtain ⟨rest, order⟩ := sent_split delivered split source
  rw [order, ← filter_fromApp_length, List.take_left]

theorem sent_at {n : Node} (delivered : n.sent = n.received.filter Msg.fromApp)
    {earlier later : List Record} {r : Record} (split : n.pool.log = earlier ++ r :: later)
    (source : r.msg.fromApp = true) :
    n.sent[earlier.countP (fun r => r.msg.fromApp)]? = some r.msg := by
  obtain ⟨rest, order⟩ := sent_split delivered split source
  rw [order, ← filter_fromApp_length]
  simp

section Order

variable {n : Node} {earlier later : List Record} {r : Record}

theorem content_before_eq (replayed : Replayed n.pool)
    (delivered : n.sent = n.received.filter Msg.fromApp)
    (split : n.pool.log = earlier ++ r :: later) (source : r.msg.fromApp = true) :
    content r.before = replay (n.sent.take (earlier.countP (fun r => r.msg.fromApp))) := by
  have found : n.pool.log[earlier.length]? = some r := by simp [split]
  have front : n.pool.log.take earlier.length = earlier := by simp [split]
  rw [sent_take delivered split source, replay_filter_fromApp, replayed.before _ r found, front]

theorem content_after_eq (replayed : Replayed n.pool)
    (delivered : n.sent = n.received.filter Msg.fromApp)
    (split : n.pool.log = earlier ++ r :: later) (source : r.msg.fromApp = true) :
    content r.after = replay (n.sent.take (earlier.countP (fun r => r.msg.fromApp) + 1)) := by
  have found : n.pool.log[earlier.length]? = some r := by simp [split]
  have front : n.pool.log.take earlier.length = earlier := by simp [split]
  rw [List.take_add_one, sent_at delivered split source, sent_take delivered split source,
    replay_append, replay_filter_fromApp, replayed.after _ r found, List.take_add_one, found, front,
    List.map_append, replay_append]
  rfl

/-- Nothing is left of what a removal took away, unless it was offered again. -/
theorem offered_after_removal {msgs : List Msg} {i j : Nat} {hashes : List TxHash} {hash : TxHash}
    (removal : msgs[i]? = some (.remove hashes)) (before : i < j) (named : hash ∈ hashes)
    (present : replay (msgs.take j) hash ≠ none) :
    ∃ k msg, i < k ∧ k < j ∧ msgs[k]? = some msg ∧ msg.Offers hash := by
  by_contra none_offered
  apply present
  have split : msgs.take j = msgs.take (i + 1) ++ (msgs.drop (i + 1)).take (j - (i + 1)) := by
    have cut := (List.take_append_drop (i + 1) (msgs.take j)).symm
    rwa [List.take_take, Nat.min_eq_left (by omega), List.drop_take] at cut
  rw [split, replay_append]
  apply foldl_specStep_absent
  · rw [List.take_add_one, removal, replay_append]
    simp [specStep, named]
  · intro msg member offers
    obtain ⟨d, found⟩ := List.mem_iff_getElem?.mp member
    rw [List.getElem?_take] at found
    split at found
    · rw [List.getElem?_drop] at found
      exact none_offered ⟨i + 1 + d, msg, by omega, by omega, found, offers⟩
    · cases found

end Order

/-- A read returns the front of the queue. -/
theorem returned_of_take {config : MempoolConfig} {r : Record} (faithful : r.Faithful config)
    {reply : PortId} (isTake : r.msg = .take reply) {returned : List RawTx}
    (answered : .txs reply returned ∈ r.effects) : returned <+: r.before.txs := by
  obtain ⟨_, env, handled, took, _, effects⟩ := faithful
  rw [isTake] at took
  obtain rfl := Option.some.inj took
  rw [← effects] at answered
  simp only [take, List.mem_singleton, Effect.txs.injEq] at answered
  rw [answered.2]
  exact takeTxs_initial _ _

/-- In the host composition the pool just after the mempool handled the app's
    k-th message is the fold of its first k messages; removals and reads are
    handled in the order in which they were sent to the app; and a read after
    a removal returns nothing under a removed hash, unless the app has sent a
    valid result for that hash in between. -/
theorem app_order_linearizes (config : MempoolConfig) (port : OutputPort) (labels : List Label)
    (n : Node) (hosted : ∀ label ∈ labels, label.Hosted)
    (ran : (system config).run (start port 1) labels = some n) :
    (∀ earlier r later, n.pool.log = earlier ++ r :: later → r.msg.fromApp = true →
      ∃ k, k = earlier.countP (fun r => r.msg.fromApp) ∧ n.sent[k]? = some r.msg ∧
        content r.after = (n.sent.take (k + 1)).foldl specStep (fun _ => none)) ∧
      n.sent.filterMap Msg.appRequest ++ n.apps.flatten.filterMap AppMsg.request =
        labels.filterMap Label.request ∧
      ∀ i j hashes reply earlier r later, i < j → n.sent[i]? = some (.remove hashes) →
        n.pool.log = earlier ++ r :: later → earlier.countP (fun r => r.msg.fromApp) = j →
        r.msg = .take reply → ∀ returned, .txs reply returned ∈ r.effects →
          returned <+: r.before.txs ∧
          ∀ hash ∈ hashes, ∀ position, r.before.txHashes.lookup hash = some position →
            position < returned.length →
              ∃ k msg, i < k ∧ k < j ∧ n.sent[k]? = some msg ∧ msg.Offers hash := by
  have replayed := run_replayed ran
  have delivered := run_sent hosted ran
  refine ⟨?_, ?_, ?_⟩
  · intro earlier r later split source
    exact ⟨_, rfl, sent_at delivered split source,
      content_after_eq replayed delivered split source⟩
  · have order := run_appRequests (wired_start port 1) ran
    simpa [appRequests, sent, start] using order
  · intro i j hashes reply earlier r later before removal split isJ isTake returned answered
    have source : r.msg.fromApp = true := by rw [isTake]; rfl
    have member : r ∈ n.pool.log := by simp [split]
    refine ⟨returned_of_take ((run_tracked ran).faithful r member) isTake answered, ?_⟩
    intro hash named position indexed _
    have found : n.pool.log[earlier.length]? = some r := by simp [split]
    have present : hash ∈ r.before.txHashes := AList.lookup_isSome.mp (by rw [indexed]; rfl)
    rw [replayed.mem_before_iff found, ← replayed.before _ r found,
      content_before_eq replayed delivered split source, isJ] at present
    exact offered_after_removal removal before named present

/-- A submission is accepted, removed through the app and then asked for. -/
def removeThenTake : List Label :=
  [.add (TestTx.serialize ⟨7⟩), .handle .calm, .forward 0, .app 0 checkTx, .handle .calm,
    .appRemove 0 [⟨7⟩], .appTake 0 3, .app 0 checkTx, .app 0 checkTx, .handle .calm,
    .handle .calm]

theorem remove_then_take_in_order :
    ∃ n, (system MempoolConfig.default).run (start OutputPort.default 1) removeThenTake = some n ∧
      n.sent.length = 3 ∧ n.apps = [[]] ∧
      n.sent.filterMap Msg.appRequest ++ n.apps.flatten.filterMap AppMsg.request =
        removeThenTake.filterMap Label.request := by
  refine ⟨_, rfl, rfl, rfl, (app_order_linearizes MempoolConfig.default OutputPort.default
    removeThenTake _ ?_ rfl).2.1⟩
  simp [removeThenTake, Label.Hosted]

end Node

end MalachiteMempool
