import MalachiteMempool.Node.Replay
import MalachiteMempool.Node.Replies

/-! # Several subscribers

Every subscriber gets a copy of the event, so the reply port of an `Add` comes
back as often as there are subscribers.  A result answers only when it holds
the last reference, and that is the last result to be handled.  The transaction
was inserted by the first one, so the last finds its hash in the pool and
answers `TxAlreadyExists`, unless a removal came in between.
-/

namespace MalachiteMempool

namespace Record

/-- The record handled a check result with this reply port. -/
def returnsTo (port : PortId) (r : Record) : Bool := r.returns.any (fun t => t.1 == port)

theorem returnsTo_iff {port : PortId} {r : Record} :
    r.returnsTo port = true ↔ ∃ tx result, r.msg = .checkTxResult tx result (some port) := by
  unfold returnsTo returns Msg.returns
  cases r.msg with
  | subscribe | networkEvent | add | take | remove => simp [Msg.check]
  | checkTxResult tx result reply => cases reply <;> simp [Msg.check, token]

theorem returnsTo_countP (port : PortId) (log : List Record) :
    (log.filterMap Record.returns).countP (fun t => t.1 == port) = log.countP (returnsTo port) := by
  rw [List.countP_filterMap]
  apply List.countP_congr
  intro r _
  unfold returnsTo
  cases r.returns <;> simp

end Record

theorem exists_last_of_countP {α : Type*} {p : α → Bool} {l : List α} (found : 0 < l.countP p) :
    ∃ earlier x later, l = earlier ++ x :: later ∧ p x = true ∧ later.countP p = 0 := by
  induction l with
  | nil => cases found
  | cons y rest ih =>
      by_cases more : 0 < rest.countP p
      · obtain ⟨earlier, x, later, rfl, here, none_later⟩ := ih more
        exact ⟨y :: earlier, x, later, rfl, here, none_later⟩
      · have here : p y = true := by
          by_contra differs
          rw [List.countP_cons_of_neg differs] at found
          exact more found
        exact ⟨[], y, rest, rfl, here, by omega⟩

/-- Two places with the same number of matches before them are the same place. -/
theorem place_unique {α : Type*} {p : α → Bool} {earlier later earlier' later' : List α} {x x' : α}
    (same : earlier ++ x :: later = earlier' ++ x' :: later') (here : p x = true)
    (here' : p x' = true) (counts : earlier.countP p = earlier'.countP p) : x = x' := by
  rcases List.append_eq_append_iff.mp same with ⟨between, rfl, rest⟩ | ⟨between, rfl, rest⟩ <;>
    cases between with
    | nil => simp_all
    | cons y between =>
        obtain ⟨rfl, _⟩ := List.cons.inj rest
        simp only [List.countP_append, List.countP_cons, here, here', if_true] at counts
        omega

namespace Node

/-- A node whose output port loses nothing, with this many subscribers. -/
structure Shared (config : MempoolConfig) (copies : Nat) (n : Node) : Prop
    extends n.Tracked config copies where
  lossless : n.Lossless
  /-- The references left to a port are those its results have not brought back. -/
  answers : ∀ earlier r later, n.pool.log = earlier ++ r :: later → r.replies =
    repliesTo config (fun port => copies - earlier.countP (Record.returnsTo port)) r.msg r.before

theorem shared_start (config : MempoolConfig) (copies : Nat) :
    (start OutputPort.unbounded copies).Shared config copies :=
  ⟨tracked_start config _ copies, lossless_start copies, by simp [start, History.init]⟩

namespace Shared

variable {config : MempoolConfig} {copies : Nat} {n : Node}

/-- Where the references to an issued port are: a request or a refusal stands
    for all of them. -/
theorem places (shared : n.Shared config copies) (port : PortId) :
    copies * (n.mailbox.filterMap Msg.request).countP (fun t => t.1 == port) + n.refs port +
        (n.pool.log.countP (Record.returnsTo port) +
          copies * (n.pool.log.filterMap (Record.refuses config)).countP (fun t => t.1 == port)) =
      if port < n.asked.length then copies else 0 := by
  have placed := shared.port_places port
  rwa [shared.lossless.none_lost, List.countP_nil, add_zero, Record.returnsTo_countP] at placed

private theorem none_of_mul_lt {a b : Nat} (small : a * b < a) : b = 0 := by
  cases b with
  | zero => rfl
  | succ b =>
      rw [Nat.mul_succ] at small
      omega

/-- Once published, a port is either with a check under way or came back. -/
theorem published (shared : n.Shared config copies) {port : PortId}
    (out : 0 < n.refs port + n.pool.log.countP (Record.returnsTo port)) :
    n.refs port + n.pool.log.countP (Record.returnsTo port) = copies ∧
      (n.pool.log.filterMap (Record.refuses config)).countP (fun t => t.1 == port) = 0 := by
  have placed := shared.places port
  split at placed
  · have requested := none_of_mul_lt (a := copies)
      (b := (n.mailbox.filterMap Msg.request).countP (fun t => t.1 == port)) (by omega)
    have refused := none_of_mul_lt (a := copies)
      (b := (n.pool.log.filterMap (Record.refuses config)).countP (fun t => t.1 == port)) (by omega)
    rw [requested, refused] at placed
    exact ⟨by omega, refused⟩
  · omega

theorem step {n' : Node} {label : Label} (shared : n.Shared config copies)
    (h : Node.step config n label = some n') : n'.Shared config copies := by
  refine ⟨shared.toTracked.step h, shared.lossless.step shared.wired.settled h, ?_⟩
  rcases handle_or_idle label with ⟨around, rfl⟩ | idle
  · obtain ⟨msg, rest, handled, waiting, took, rfl⟩ := handle_cases h
    have wired := head_ne_subscribe shared.wired.settled waiting
    obtain ⟨replies, _, _⟩ := handleMsg_outside took wired
    intro earlier r later split
    cases later using List.reverseRecOn with
    | nil =>
        obtain ⟨rfl, new⟩ := List.append_inj' split rfl
        obtain rfl := List.singleton_inj.mp new
        simp only [Record.replies, replies]
        cases msg with
        | subscribe | networkEvent | add | take | remove => rfl
        | checkTxResult tx result reply =>
            cases reply with
            | none => rfl
            | some port =>
                have inMailbox : .checkTxResult tx result (some port) ∈ n.mailbox := by
                  simp [waiting]
                have held := Tracked.refs_pos (mem_checks_of_result inMailbox)
                have out : 0 < n.refs port + n.pool.log.countP (Record.returnsTo port) := by omega
                obtain ⟨total, _⟩ := shared.published out
                have left : n.refs port =
                    copies - n.pool.log.countP (Record.returnsTo port) := by omega
                simp only [repliesTo, env, left]
    | append_singleton later last =>
        have front : n.pool.log = earlier ++ r :: later := by
          rw [← List.cons_append, ← List.append_assoc] at split
          exact (List.append_inj' split rfl).1
        exact shared.answers earlier r later front
  · rw [(frame_step idle h).log]
    exact shared.answers

end Shared

theorem run_shared {config : MempoolConfig} {copies : Nat} {labels : List Label} {n : Node}
    (ran : (system config).run (start OutputPort.unbounded copies) labels = some n) :
    n.Shared config copies :=
  (system config).run_induction (fun _ _ _ shared h => shared.step h) (shared_start config copies)
    ran

/-- The last result for this port that was handled. -/
def LastResult (n : Node) (port : PortId) (r : Record) : Prop :=
  ∃ earlier later, n.pool.log = earlier ++ r :: later ∧ r.returnsTo port = true ∧
    later.countP (Record.returnsTo port) = 0

/-- Answered with this outcome, and never with `TxAlreadyExists`. -/
def AnsweredOk (n : Node) (port : PortId) (outcome : CheckTxOutcome) : Prop :=
  (port, .ok outcome) ∈ n.replies ∧ ∀ hash, (port, .error (.txAlreadyExists hash)) ∉ n.replies

namespace Shared

variable {config : MempoolConfig} {copies : Nat} {n : Node} {port : PortId} {r : Record}

/-- Only the last result answers. -/
theorem reply_iff (shared : n.Shared config copies) (idle : n.refs port = 0)
    (last : n.LastResult port r) {tx : RawTx} {result : AppResult}
    (msg : r.msg = .checkTxResult tx result (some port))
    {value : Except MempoolError CheckTxOutcome} :
    (port, value) ∈ n.replies ↔ value = verdict r.before result := by
  obtain ⟨earlier, later, split, here, none_later⟩ := last
  have handled : n.pool.log.countP (Record.returnsTo port) =
      earlier.countP (Record.returnsTo port) + 1 := by
    rw [split, List.countP_append, List.countP_cons_of_pos here, none_later]
  have out : 0 < n.refs port + n.pool.log.countP (Record.returnsTo port) := by omega
  obtain ⟨total, unrefused⟩ := shared.published out
  rw [mem_replies]
  constructor
  · intro ⟨r', member, replied⟩
    obtain ⟨earlier', later', split'⟩ := List.append_of_mem member
    rw [shared.answers earlier' r' later' split'] at replied
    rcases mem_repliesTo.mp replied with ⟨tx', isAdd, full, _⟩ |
      ⟨tx', result', isResult, alone, rfl⟩
    · exfalso
      have refused : (port, tx') ∈ n.pool.log.filterMap (Record.refuses config) :=
        List.mem_filterMap.mpr ⟨r', member, by simp [Record.refuses, full, isAdd, Msg.request]⟩
      simpa using List.countP_eq_zero.mp unrefused _ refused
    · have here' : r'.returnsTo port = true := Record.returnsTo_iff.mpr ⟨tx', result', isResult⟩
      obtain rfl := place_unique (split.symm.trans split') here here' (by omega)
      rw [msg, Msg.checkTxResult.injEq] at isResult
      rw [isResult.2.1]
  · intro isVerdict
    refine ⟨r, by simp [split], ?_⟩
    rw [shared.answers earlier r later split, isVerdict]
    exact mem_repliesTo.mpr (.inr ⟨tx, result, msg, by omega, rfl⟩)

end Shared

/-- All results of this `Add` were handled, with this valid outcome, and one of
    them inserted the transaction. -/
structure Completed (n : Node) (port : PortId) (tx : RawTx) (outcome : CheckTxOutcome) : Prop where
  settled : ¬ n.InFlight port
  own : ∃ r ∈ n.pool.log, r.msg = .checkTxResult tx (.ok outcome) (some port) ∧
    r.inserted = some (outcome.hash, tx)

section Completed

variable {config : MempoolConfig} {copies : Nat} {n : Node} {check : RawTx → AppResult}
  {port : PortId} {tx : RawTx} {outcome : CheckTxOutcome}

theorem Completed.idle (completed : n.Completed port tx outcome) : n.refs port = 0 := by
  have settled := completed.settled
  rw [inFlight_iff] at settled
  omega

theorem Completed.countP_pos (completed : n.Completed port tx outcome) :
    0 < n.pool.log.countP (Record.returnsTo port) := by
  obtain ⟨r, member, msg, _⟩ := completed.own
  exact List.countP_pos_iff.mpr ⟨r, member, Record.returnsTo_iff.mpr ⟨tx, _, msg⟩⟩

theorem Completed.exists_last (completed : n.Completed port tx outcome) :
    ∃ r, n.LastResult port r := by
  obtain ⟨earlier, last, later, split, here, none_later⟩ :=
    exists_last_of_countP completed.countP_pos
  exact ⟨last, earlier, later, split, here, none_later⟩

theorem Completed.valid (completed : n.Completed port tx outcome)
    (shared : n.Shared config copies) : outcome.isValid = true := by
  obtain ⟨own, member, msg, inserted⟩ := completed.own
  rw [(shared.faithful own member).2.inserted_eq, msg] at inserted
  obtain ⟨outcome', valid, accepted, _⟩ := newcomer_eq_some_iff.mp inserted
  obtain ⟨same, _⟩ := verdict_eq_ok.mp accepted
  exact Except.ok.inj same ▸ valid

/-- All results of a completed `Add` are alike. -/
theorem Completed.result (completed : n.Completed port tx outcome)
    (shared : n.Shared config copies) (checked : n.Checked check) {r : Record}
    (member : r ∈ n.pool.log) (here : r.returnsTo port = true) :
    r.msg = .checkTxResult tx (.ok outcome) (some port) := by
  obtain ⟨own, ownMember, ownMsg, _⟩ := completed.own
  obtain ⟨tx', result, msg⟩ := Record.returnsTo_iff.mp here
  have sameTx : tx' = tx := Option.some.inj
    ((shared.tx_of_result member msg).symm.trans (shared.tx_of_result ownMember ownMsg))
  have inLog : ∀ r ∈ n.pool.log, r.msg ∈ n.received := fun r inside =>
    List.mem_append_left _ (List.mem_map_of_mem inside)
  have isOwn := checked tx _ _ (ownMsg ▸ inLog own ownMember)
  have isThis := checked tx' _ _ (msg ▸ inLog r member)
  rw [msg, isThis, sameTx, isOwn]

/-- The exact condition: the last result finds the hash absent. -/
theorem Completed.answeredOk_iff (completed : n.Completed port tx outcome)
    (shared : n.Shared config copies) (checked : n.Checked check) {r : Record}
    (last : n.LastResult port r) :
    n.AnsweredOk port outcome ↔ outcome.hash ∉ r.before.txHashes := by
  have idle := completed.idle
  have valid := completed.valid shared
  obtain ⟨earlier, later, split, here, none_later⟩ := last
  have msg := completed.result shared checked (by simp [split]) here
  have replies : ∀ value, (port, value) ∈ n.replies ↔ value = verdict r.before (.ok outcome) :=
    fun _ => shared.reply_iff idle ⟨earlier, later, split, here, none_later⟩ msg
  simp only [AnsweredOk, replies]
  constructor
  · intro ⟨accepted, _⟩ present
    exact (verdict_eq_ok.mp accepted.symm).2 ⟨valid, present⟩
  · intro absent
    have accepted : verdict r.before (.ok outcome) = .ok outcome :=
      verdict_eq_ok.mpr ⟨rfl, fun both => absent both.2⟩
    simp [accepted]

/-- The results of a completed `Add` are as many as the subscribers. -/
theorem Completed.countP_eq (completed : n.Completed port tx outcome)
    (shared : n.Shared config copies) :
    n.pool.log.countP (Record.returnsTo port) = copies ∧ 0 < copies := by
  have found := completed.countP_pos
  have total := (shared.published (by omega : 0 < n.refs port + _)).1
  have idle := completed.idle
  omega

theorem Completed.absent_of_one (completed : n.Completed port tx outcome)
    (shared : n.Shared config 1) {r : Record} (last : n.LastResult port r) :
    outcome.hash ∉ r.before.txHashes := by
  obtain ⟨own, member, msg, inserted⟩ := completed.own
  obtain ⟨earlier, later, split, here, _⟩ := last
  -- there is one result only, so the last one is the one that inserted
  have atMost := (completed.countP_eq shared).1.le
  obtain rfl := eq_of_countP_le_one atMost member (Record.returnsTo_iff.mpr ⟨tx, _, msg⟩)
    (by simp [split]) here
  rw [(shared.faithful own member).2.inserted_eq] at inserted
  exact newcomer_absent inserted

theorem Completed.present_of_two (completed : n.Completed port tx outcome)
    (shared : n.Shared config copies) (checked : n.Checked check) (replayed : Replayed n.pool)
    (several : 2 ≤ copies) (spared : ∀ r ∈ n.pool.log, ¬ r.msg.Drops outcome.hash)
    (valid : outcome.isValid = true) {r : Record} (last : n.LastResult port r) :
    outcome.hash ∈ r.before.txHashes := by
  obtain ⟨earlier, later, split, here, none_later⟩ := last
  have found : n.pool.log[earlier.length]? = some r := by simp [split]
  have front : n.pool.log.take earlier.length = earlier := by simp [split]
  rw [replayed.mem_before_iff found, front]
  -- an earlier result of the same port left the transaction in the pool
  have total := (completed.countP_eq shared).1
  rw [split, List.countP_append, List.countP_cons_of_pos here, none_later] at total
  obtain ⟨first, inside, isResult⟩ := List.countP_pos_iff.mp
    (show 0 < earlier.countP (Record.returnsTo port) by omega)
  obtain ⟨before, after, rfl⟩ := List.append_of_mem inside
  have msg := completed.result shared checked (by simp [split]) isResult
  rw [List.map_append, List.map_cons, replay_append, List.foldl_cons]
  have offered : specStep (replay (before.map Record.msg)) first.msg outcome.hash ≠ none :=
    specStep_offered ⟨tx, outcome, some port, msg, valid, rfl⟩
  rw [foldl_specStep_keeps offered]
  · exact offered
  · intro msg' member
    obtain ⟨r', inAfter, rfl⟩ := List.mem_map.mp member
    exact spared r' (by simp [split, inAfter])

end Completed

/-- An `Add` inserted by one of its own results is answered with `Ok` exactly
    when the last of them finds its hash absent.  With one subscriber that is
    always so; without removals it is never so with more. -/
theorem answered_ok_iff_last_finds_absent (config : MempoolConfig) (check : RawTx → AppResult)
    (copies : Nat) (labels : List Label) (n : Node)
    (ran : (system config).run (start OutputPort.unbounded copies) labels = some n)
    (deterministic : ∀ label ∈ labels, label.ChecksWith check) (port : PortId) (tx : RawTx)
    (outcome : CheckTxOutcome) (completed : n.Completed port tx outcome) :
    (n.AnsweredOk port outcome ↔
        ∃ r, n.LastResult port r ∧ outcome.hash ∉ r.before.txHashes) ∧
      (copies = 1 → n.AnsweredOk port outcome) ∧
      ((∀ r ∈ n.pool.log, ¬ r.msg.Drops outcome.hash) →
        (n.AnsweredOk port outcome ↔ copies = 1)) := by
  have shared := run_shared ran
  have checked := run_checked deterministic ran
  obtain ⟨r, last⟩ := completed.exists_last
  have exactly := completed.answeredOk_iff shared checked last
  have one : copies = 1 → n.AnsweredOk port outcome := by
    intro isOne
    subst isOne
    exact exactly.mpr (completed.absent_of_one shared last)
  refine ⟨?_, one, ?_⟩
  · constructor
    · intro answered
      exact ⟨r, last, exactly.mp answered⟩
    · intro ⟨r', last', absent⟩
      exact (completed.answeredOk_iff shared checked last').mpr absent
  · intro spared
    refine ⟨fun answered => ?_, one⟩
    by_contra notOne
    have positive := (completed.countP_eq shared).2
    exact exactly.mp answered (completed.present_of_two shared checked (run_replayed ran) (by omega)
      spared (completed.valid shared) last)

/-- One submission on its way to two subscribers. -/
def twoResults : List Label :=
  [.add (Host.TestTx.serialize ⟨7⟩), .handle .calm, .forward 0, .forward 1, .app 0 Host.checkTx,
    .app 1 Host.checkTx, .handle .calm, .handle .calm]

/-- The same, with a removal between the two results. -/
def removedBetween : List Label :=
  [.add (Host.TestTx.serialize ⟨7⟩), .handle .calm, .forward 0, .forward 1, .app 0 Host.checkTx,
    .remove [⟨Host.toLeBytes 7⟩], .app 1 Host.checkTx, .handle .calm, .handle .calm, .handle .calm]

/-- One submission on its way to one subscriber, to two, and to two with a
    removal between their results. -/
theorem round_trip_answered_ok :
    (∃ n, (system MempoolConfig.default).run (start OutputPort.unbounded 1) roundTrip = some n ∧
      n.AnsweredOk 0 ⟨true, ⟨Host.toLeBytes 7⟩⟩) ∧
    (∃ n, (system MempoolConfig.default).run (start OutputPort.unbounded 2) twoResults = some n ∧
      ¬ n.AnsweredOk 0 ⟨true, ⟨Host.toLeBytes 7⟩⟩) ∧
    ∃ n, (system MempoolConfig.default).run (start OutputPort.unbounded 2) removedBetween = some n ∧
      n.AnsweredOk 0 ⟨true, ⟨Host.toLeBytes 7⟩⟩ := by
  refine ⟨?_, ?_, ?_⟩
  · refine ⟨_, rfl, (answered_ok_iff_last_finds_absent MempoolConfig.default Host.checkTx 1
      roundTrip _ rfl ?_ 0 (Host.TestTx.serialize ⟨7⟩) _ ⟨?_, ?_⟩).2.1 rfl⟩
    · simp [roundTrip, Label.ChecksWith]
    · exact mt inFlight_iff.mp (by decide)
    · exact ⟨_, .tail _ (.head _), rfl, rfl⟩
  · obtain ⟨n, ran, msgs, completed⟩ : ∃ n, (system MempoolConfig.default).run
        (start OutputPort.unbounded 2) twoResults = some n ∧
        (∀ hashes, .remove hashes ∉ n.pool.log.map Record.msg) ∧
        n.Completed 0 (Host.TestTx.serialize ⟨7⟩) ⟨true, ⟨Host.toLeBytes 7⟩⟩ :=
      ⟨_, rfl, by rintro hashes (_ | ⟨_, _ | ⟨_, _ | ⟨_, ⟨⟩⟩⟩⟩), mt inFlight_iff.mp (by decide),
        ⟨_, .tail _ (.head _), rfl, rfl⟩⟩
    have spared : ∀ r ∈ n.pool.log, ¬ r.msg.Drops ⟨Host.toLeBytes 7⟩ := by
      rintro r member ⟨hashes, isRemove, _⟩
      exact msgs hashes (isRemove ▸ List.mem_map_of_mem member)
    have exactly := (answered_ok_iff_last_finds_absent MempoolConfig.default Host.checkTx 2
      twoResults n ran (by simp [twoResults, Label.ChecksWith]) 0 _ _ completed).2.2 spared
    exact ⟨n, ran, fun answered => absurd (exactly.mp answered) (by decide)⟩
  · obtain ⟨n, ran, absent, completed⟩ : ∃ n, (system MempoolConfig.default).run
        (start OutputPort.unbounded 2) removedBetween = some n ∧
        (∃ r, n.LastResult 0 r ∧ ⟨Host.toLeBytes 7⟩ ∉ r.before.txHashes) ∧
        n.Completed 0 (Host.TestTx.serialize ⟨7⟩) ⟨true, ⟨Host.toLeBytes 7⟩⟩ :=
      ⟨_, rfl, ⟨_, ⟨[_, _, _], [], rfl, rfl, rfl⟩, by decide⟩, mt inFlight_iff.mp (by decide),
        ⟨_, .tail _ (.head _), rfl, rfl⟩⟩
    have exactly := (answered_ok_iff_last_finds_absent MempoolConfig.default Host.checkTx 2
      removedBetween n ran (by simp [removedBetween, Label.ChecksWith]) 0 _ _ completed).1
    exact ⟨n, ran, exactly.mpr absent⟩

/-- The first result inserts the transaction, the second denies it. -/
theorem two_results_deny_inserted_add :
    ∃ n, (system MempoolConfig.default).run (start OutputPort.default 2) twoResults = some n ∧
      n.Completed 0 (Host.TestTx.serialize ⟨7⟩) ⟨true, ⟨Host.toLeBytes 7⟩⟩ ∧
      n.replies = [(0, .error (.txAlreadyExists ⟨Host.toLeBytes 7⟩))] ∧
      ¬ n.AnsweredOk 0 ⟨true, ⟨Host.toLeBytes 7⟩⟩ := by
  refine ⟨_, rfl, ⟨?_, ?_⟩, by decide, ?_⟩
  · exact mt inFlight_iff.mp (by decide)
  · exact ⟨_, .tail _ (.head _), rfl, rfl⟩
  · intro answered
    exact answered.2 ⟨Host.toLeBytes 7⟩ (by decide)

end Node

end MalachiteMempool
