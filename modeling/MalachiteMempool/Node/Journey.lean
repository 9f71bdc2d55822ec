import MalachiteMempool.Node.Gossip
import MalachiteMempool.Node.Replies

/-! # What becomes of a submission

A node that loses nothing, with one app that always checks in the same way, and
to which no removal is sent.  A submission on its way stays on its way until its
result is handled or a full pool turns it away; a handled result leaves its
valid hash in the pool; and whatever a local submission puts into the pool is
broadcast.
-/

namespace MalachiteMempool

open Host IndexedQueue

/-- The hash under which a transaction is accepted. -/
def validHash (check : RawTx → AppResult) (tx : RawTx) : Option TxHash :=
  match check tx with
  | .ok outcome => if outcome.isValid then some outcome.hash else none
  | .error _ => none

/-- No removal, one check function, and a network actor that takes casts. -/
def Label.Keeps (check : RawTx → AppResult) : Label → Prop
  | .remove _ | .appRemove _ _ => False
  | .app _ used => used = check
  | .handle around => around.networkUp = true
  | _ => True

theorem Label.Keeps.checksWith {check : RawTx → AppResult} {label : Label}
    (keeps : label.Keeps check) : label.ChecksWith check := by
  cases label with
  | app | appTake | add | gossip | take | handle | forward => first | exact keeps | trivial
  | remove | appRemove => cases keeps

namespace Node

/-- Submissions in the mailbox and checks under way. -/
def flight (n : Node) : List Check := n.mailbox.filterMap Msg.submission ++ n.checks

/-- The submission a full pool turns away. -/
def turnedAway (config : MempoolConfig) (n : Node) : Label → Multiset Check
  | .handle _ =>
      if config.maxPoolSize ≤ n.pool.state.txs.length then
        (n.mailbox.head?.bind Msg.submission).toList
      else 0
  | _ => 0

/-- The pair a step puts into the pool. -/
def incoming (n : Node) : Label → Option (TxHash × RawTx)
  | .handle _ => n.mailbox.head?.bind (fun msg => newcomer msg n.pool.state)
  | _ => none

/-- What a step broadcasts. -/
def gossiped (n : Node) : Label → List MempoolTransactionBatch
  | .handle around => n.mailbox.head?.toList.flatMap (fun msg =>
      broadcastsOf (n.env around) msg n.pool.state)
  | _ => []

def Unremoved (n : Node) : Prop :=
  (∀ hashes, .remove hashes ∉ n.mailbox) ∧ ∀ box ∈ n.apps, ∀ hashes, .remove hashes ∉ box

theorem unremoved_start (port : OutputPort) (subscribers : Nat) :
    (start port subscribers).Unremoved := by
  refine ⟨by simp [start], fun box member => ?_⟩
  have empty := List.eq_of_mem_replicate member
  simp [empty]

theorem Unremoved.step {config : MempoolConfig} {check : RawTx → AppResult} {n n' : Node}
    {label : Label} (keeps : label.Keeps check) (unremoved : n.Unremoved)
    (h : step config n label = some n') : n'.Unremoved := by
  obtain ⟨mailbox, apps⟩ := unremoved
  -- a box of the next state is an old one, or the one that was replaced
  have replaced : ∀ {app : Nat} {new : List AppMsg}, (∀ hashes, .remove hashes ∉ new) →
      ∀ box ∈ n.apps.set app new, ∀ hashes, .remove hashes ∉ box := by
    intro app new fresh box member
    rcases List.mem_or_eq_of_mem_set member with old | rfl
    · exact apps box old
    · exact fresh
  cases label with
  | remove | appRemove => cases keeps
  | add tx | gossip event | take reply =>
      obtain rfl := Option.some.inj h
      exact ⟨by simpa [post] using mailbox, apps⟩
  | appTake app reply =>
      obtain ⟨box, present, rfl⟩ := postApp_cases h
      have old := apps box (List.mem_of_getElem? present)
      exact ⟨mailbox, replaced (by simpa using old)⟩
  | handle around =>
      obtain ⟨msg, rest, handled, waiting, _, rfl⟩ := handle_cases h
      refine ⟨fun hashes member => mailbox hashes ?_, apps⟩
      rw [waiting]
      exact List.mem_cons_of_mem msg member
  | forward app =>
      obtain ⟨got, port, _, outcome⟩ := forward_cases h
      rcases outcome with ⟨_, rfl⟩ | ⟨event, box, _, present, rfl⟩
      · exact ⟨mailbox, apps⟩
      · have old := apps box (List.mem_of_getElem? present)
        exact ⟨mailbox, replaced (by simpa using old)⟩
  | app app used =>
      obtain ⟨msg, rest, present, rfl⟩ := app_cases h
      have old := apps _ (List.mem_of_getElem? present)
      refine ⟨fun hashes member => ?_,
        replaced (fun hashes member => old hashes (by simp [member]))⟩
      rcases List.mem_append.mp member with before | new
      · exact mailbox hashes before
      · have isRemoval := List.mem_singleton.mp new
        cases msg with
        | mempoolEvent event => cases event; cases isRemoval
        | take reply => cases isRemoval
        | remove hashes' => exact old hashes' (by simp)

/-- Everything the journey of a submission relies on. -/
structure Healthy (config : MempoolConfig) (check : RawTx → AppResult) (n : Node) : Prop where
  single : n.Single config
  lossless : n.Lossless
  checked : n.Checked check
  unremoved : n.Unremoved
  sound : ∃ queue, Sound n.pool queue

theorem healthy_start (config : MempoolConfig) (check : RawTx → AppResult) :
    (start OutputPort.unbounded 1).Healthy config check where
  single := single_start config _
  lossless := lossless_start 1
  checked := by
    intro tx result reply member
    cases member
  unremoved := unremoved_start _ 1
  sound := ⟨[], sound_init rfl rfl⟩

namespace Healthy

variable {config : MempoolConfig} {check : RawTx → AppResult} {n n' : Node} {label : Label}

theorem step (healthy : n.Healthy config check) (keeps : label.Keeps check)
    (h : Node.step config n label = some n') : n'.Healthy config check where
  single := healthy.single.step h
  lossless := healthy.lossless.step healthy.single.wired.settled h
  checked := Checked.step keeps.checksWith healthy.checked h
  unremoved := healthy.unremoved.step keeps h
  sound := sound_step healthy.sound h

private theorem admit_or_turn_away {A : Type*} [AddCommMonoid A]
    {waiting checks checks' admits returns turned submission : A}
    (balance : checks' + returns = checks + admits) (decided : admits + turned = submission) :
    waiting + checks' + (returns + turned) = submission + waiting + checks := by
  calc
    waiting + checks' + (returns + turned) = waiting + (checks' + returns) + turned := by abel
    _ = admits + turned + waiting + checks := by rw [balance]; abel
    _ = submission + waiting + checks := by rw [decided]

/-- The balance of submissions: what was on its way or is posted is on its way
    afterwards, or has come back, or was turned away. -/
theorem flight_balance (healthy : n.Healthy config check)
    (h : Node.step config n label = some n') :
    (n'.flight : Multiset Check) + (n.returned label + n.turnedAway config label) =
      n.flight + ((n.posted label).filterMap Msg.submission : List Check) := by
  have balance := accounts_step healthy.single.wired.settled h
  rw [(healthy.lossless.step healthy.single.wired.settled h).none_lost,
    healthy.lossless.none_lost, Multiset.coe_nil, add_zero, add_zero] at balance
  simp only [flight, ← Multiset.coe_add]
  rcases handle_or_idle label with ⟨around, rfl⟩ | idle
  · obtain ⟨msg, rest, handled, waiting, took, rfl⟩ := handle_cases h
    have decided : n.admitted config (.handle around) + n.turnedAway config (.handle around) =
        (msg.submission.toList : List Check) := by
      simp only [admitted, turnedAway, waiting, List.head?_cons, Option.bind_some,
        healthy.single.wired.receivers, Multiset.replicate_one]
      by_cases full : config.maxPoolSize ≤ n.pool.state.txs.length <;>
        cases msg.submission <;> simp [full]
    have popped : (n.mailbox.filterMap Msg.submission : Multiset Check) =
        (msg.submission.toList : List Check) + (rest.filterMap Msg.submission : List Check) := by
      rw [waiting, Broadcast.filterMap_first]
    rw [popped]
    simp only [posted, List.filterMap_nil, Multiset.coe_nil, add_zero]
    exact admit_or_turn_away balance decided
  · have frame := frame_step idle h
    obtain ⟨returnsNone, admitsNone⟩ :
      n.returned label = 0 ∧ n.admitted config label = 0 := unmoved_of_idle idle
    have turnsNone : n.turnedAway config label = 0 := by
      cases label with
      | handle around => exact absurd rfl (idle around)
      | add | gossip | remove | take | appRemove | appTake | forward | app => rfl
    rw [returnsNone, admitsNone, add_zero, add_zero] at balance
    rw [returnsNone, turnsNone, frame.mailbox, List.filterMap_append, balance, ← Multiset.coe_add]
    abel

theorem mem_flight_step (healthy : n.Healthy config check)
    (h : Node.step config n label = some n') {x : Check} (inFlight : x ∈ n.flight) :
    x ∈ n'.flight ∨ x ∈ n.returned label ∨ x ∈ n.turnedAway config label := by
  have member : x ∈ (n.flight : Multiset Check) +
      ((n.posted label).filterMap Msg.submission : List Check) :=
    Multiset.mem_add.mpr (.inl inFlight)
  rw [← healthy.flight_balance h, Multiset.mem_add, Multiset.mem_add] at member
  exact member

theorem mem_flight_origin (healthy : n.Healthy config check)
    (h : Node.step config n label = some n') {x : Check} (inFlight : x ∈ n'.flight) :
    x ∈ n.flight ∨ x ∈ (n.posted label).filterMap Msg.submission := by
  have member : x ∈ (n'.flight : Multiset Check) +
      (n.returned label + n.turnedAway config label) := Multiset.mem_add.mpr (.inl inFlight)
  rw [healthy.flight_balance h, Multiset.mem_add] at member
  exact member

theorem posted_in_flight (healthy : n.Healthy config check)
    (h : Node.step config n label = some n') {x : Check}
    (posts : x ∈ (n.posted label).filterMap Msg.submission) :
    x ∈ n'.flight ∨ x ∈ n.returned label ∨ x ∈ n.turnedAway config label := by
  have member : x ∈ (n.flight : Multiset Check) +
      ((n.posted label).filterMap Msg.submission : List Check) :=
    Multiset.mem_add.mpr (.inr posts)
  rw [← healthy.flight_balance h, Multiset.mem_add, Multiset.mem_add] at member
  exact member

theorem txHashes_step (healthy : n.Healthy config check)
    (h : Node.step config n label = some n') (hash : TxHash) :
    hash ∈ n'.pool.state.txHashes ↔
      hash ∈ n.pool.state.txHashes ∨ ∃ tx, n.incoming label = some (hash, tx) := by
  obtain ⟨queue, sound⟩ := healthy.sound
  rcases handle_or_idle label with ⟨around, rfl⟩ | idle
  · obtain ⟨msg, rest, _, waiting, _, _⟩ := handle_cases h
    have sound' := sound_handle sound waiting h
    have appended : nextQueue around.order msg n.pool.state queue =
        queue ++ (newcomer msg n.pool.state).toList := by
      cases msg with
      | remove hashes => exact absurd (by simp [waiting]) (healthy.unremoved.1 hashes)
      | subscribe | networkEvent | add | take | checkTxResult => rfl
    rw [sound'.represents.mem_iff, sound.represents.mem_iff, appended]
    simp [incoming, waiting]
  · rw [(frame_step idle h).txHashes]
    cases label with
    | handle around => exact absurd rfl (idle around)
    | add | gossip | remove | take | appRemove | appTake | forward | app => simp [incoming]

theorem broadcasts_step (healthy : n.Healthy config check)
    (h : Node.step config n label = some n') :
    n'.broadcasts = n.broadcasts ++ n.gossiped label := by
  rcases handle_or_idle label with ⟨around, rfl⟩ | idle
  · obtain ⟨msg, rest, handled, waiting, took, rfl⟩ := handle_cases h
    have wired := head_ne_subscribe healthy.single.wired.settled waiting
    obtain ⟨_, made, _⟩ := handleMsg_outside took wired
    simp [broadcasts, gossiped, waiting, Record.broadcasts, made]
  · unfold broadcasts
    rw [(frame_step idle h).log]
    cases label with
    | handle around => exact absurd rfl (idle around)
    | add | gossip | remove | take | appRemove | appTake | forward | app => simp [gossiped]

/-- What enters the pool is a valid result, and a local one is broadcast. -/
theorem incoming_cases (healthy : n.Healthy config check) (keeps : label.Keeps check)
    {hash : TxHash} {tx : RawTx} (enters : n.incoming label = some (hash, tx)) :
    validHash check tx = some hash ∧ ∃ reply, (tx, reply) ∈ n.checks ∧
      n.gossiped label = if reply.isSome then [batchOf tx] else [] := by
  cases label with
  | add | gossip | remove | take | appRemove | appTake | forward | app => cases enters
  | handle around =>
      cases waiting : n.mailbox with
      | nil => simp [incoming, waiting] at enters
      | cons msg rest =>
          simp only [incoming, waiting, List.head?_cons, Option.bind_some] at enters
          cases msg with
          | subscribe | networkEvent | add | take | remove => cases enters
          | checkTxResult tx' result reply =>
              obtain ⟨outcome, valid, accepted, same⟩ := newcomer_eq_some_iff.mp enters
              obtain ⟨rfl, rfl⟩ := Prod.mk.inj same
              obtain ⟨rfl, _⟩ := verdict_eq_ok.mp accepted
              have inMailbox : .checkTxResult tx (.ok outcome) reply ∈ n.mailbox := by
                simp [waiting]
              have isCheck := healthy.checked tx _ reply (List.mem_append_right _ inMailbox)
              refine ⟨by simp [validHash, ← isCheck, valid], reply,
                mem_checks_of_result inMailbox, ?_⟩
              have up : around.networkUp = true := keeps
              cases reply <;> simp [gossiped, waiting, broadcastsOf, enters, env, up]

/-- A handled result leaves its valid hash in the pool. -/
theorem returned_in_pool (healthy : n.Healthy config check)
    (h : Node.step config n label = some n') {x : Check} (back : x ∈ n.returned label)
    {hash : TxHash} (valid : validHash check x.1 = some hash) :
    hash ∈ n'.pool.state.txHashes := by
  rw [healthy.txHashes_step h]
  cases label with
  | add | gossip | remove | take | appRemove | appTake | forward | app => cases back
  | handle around =>
      cases waiting : n.mailbox with
      | nil => simp [returned, waiting] at back
      | cons msg rest =>
          simp only [returned, waiting, List.head?_cons, Option.bind_some, Multiset.mem_coe,
            Option.mem_toList] at back
          cases msg with
          | subscribe | networkEvent | add | take | remove => cases back
          | checkTxResult tx result reply =>
              obtain rfl := Option.some.inj back
              have isCheck := healthy.checked tx result reply
                (List.mem_append_right _ (by simp [waiting]))
              subst isCheck
              simp only [validHash] at valid
              split at valid
              · rename_i outcome checks
                split at valid
                · rename_i isValid
                  obtain rfl := Option.some.inj valid
                  by_cases present : outcome.hash ∈ n.pool.state.txHashes
                  · exact .inl present
                  · refine .inr ⟨tx, ?_⟩
                    simp only [incoming, waiting, List.head?_cons, Option.bind_some, checks]
                    refine newcomer_eq_some_iff.mpr ⟨outcome, isValid, ?_, rfl⟩
                    exact verdict_eq_ok.mpr ⟨rfl, fun both => present both.2⟩
                · cases valid
              · cases valid

/-- Only what enters the pool is broadcast. -/
theorem gossiped_incoming {batch : MempoolTransactionBatch} (made : batch ∈ n.gossiped label) :
    ∃ hash tx, n.incoming label = some (hash, tx) ∧ batch = batchOf tx := by
  cases label with
  | add | gossip | remove | take | appRemove | appTake | forward | app => cases made
  | handle around =>
      cases waiting : n.mailbox with
      | nil => simp [gossiped, waiting] at made
      | cons msg rest =>
          simp only [gossiped, waiting, List.head?_cons, Option.toList_some, List.flatMap_singleton]
            at made
          simp only [incoming, waiting, List.head?_cons, Option.bind_some]
          cases msg with
          | subscribe | networkEvent | add | take | remove => cases made
          | checkTxResult tx result reply =>
              cases reply with
              | none => cases made
              | some port =>
                  simp only [broadcastsOf] at made
                  split at made
                  · rename_i news
                    obtain ⟨isNew, _⟩ := (Bool.and_eq_true _ _).mp news
                    obtain ⟨pair, new⟩ := Option.isSome_iff_exists.mp isNew
                    obtain ⟨outcome, _, _, rfl⟩ := newcomer_eq_some_iff.mp new
                    exact ⟨_, tx, new, List.mem_singleton.mp made⟩
                  · cases made

end Healthy

/-- Submissions come from clients and from the network. -/
theorem posted_submission {n : Node} {label : Label} {x : Check}
    (posts : x ∈ (n.posted label).filterMap Msg.submission) :
    (∃ tx, label = .add tx ∧ x = (tx, some n.asked.length)) ∨
      ∃ event, label = .gossip event ∧ (Msg.networkEvent event).submission = some x := by
  cases label with
  | add tx =>
      simp only [posted, List.mem_filterMap, List.mem_singleton, exists_eq_left, Msg.submission,
        Option.some.injEq] at posts
      exact .inl ⟨tx, rfl, posts.symm⟩
  | gossip event =>
      simp only [posted, List.mem_filterMap, List.mem_singleton, exists_eq_left] at posts
      exact .inr ⟨event, rfl, posts⟩
  | remove | take | appRemove | appTake | handle | forward => simp [posted, Msg.submission] at posts
  | app app check =>
      simp only [posted] at posts
      split at posts
      · rename_i msg rest present
        cases msg with
        | mempoolEvent event => cases event; simp [appHandle, Msg.submission] at posts
        | take reply => simp [appHandle, Msg.submission] at posts
        | remove hashes => simp [appHandle, Msg.submission] at posts
      · cases posts

/-- A hash is in the pool, or a transaction on its way will bring it. -/
def Settled (n : Node) (tx : RawTx) (hash : TxHash) : Prop :=
  hash ∈ n.pool.state.txHashes ∨ ∃ reply, (tx, reply) ∈ n.flight

theorem Settled.step {config : MempoolConfig} {check : RawTx → AppResult} {n n' : Node}
    {label : Label} {tx : RawTx} {hash : TxHash} (settled : n.Settled tx hash)
    (healthy : n.Healthy config check) (valid : validHash check tx = some hash)
    (full : config.maxPoolSize ≤ n.pool.state.txs.length → hash ∈ n.pool.state.txHashes)
    (h : Node.step config n label = some n') : n'.Settled tx hash := by
  have kept : hash ∈ n.pool.state.txHashes → n'.Settled tx hash := fun present =>
    .inl ((healthy.txHashes_step h hash).mpr (.inl present))
  rcases settled with present | ⟨reply, inFlight⟩
  · exact kept present
  · rcases healthy.mem_flight_step h inFlight with still | back | away
    · exact .inr ⟨reply, still⟩
    · exact .inl (healthy.returned_in_pool h back valid)
    · cases label with
      | add | gossip | remove | take | appRemove | appTake | forward | app => cases away
      | handle around =>
          by_cases isFull : config.maxPoolSize ≤ n.pool.state.txs.length
          · exact kept (full isFull)
          · simp [turnedAway, isFull] at away

end Node

end MalachiteMempool
