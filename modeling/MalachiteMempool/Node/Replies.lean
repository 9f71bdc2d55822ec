import MalachiteMempool.Node.Delivery

/-! # The reply protocol with one app

With one subscriber and an output port that loses nothing, every `Add` is
answered once, and the answer says what happened: a refusal tells the size of
the pool when the `Add` was handled, any other answer what the pool did with
the check result that came back later.
-/

namespace MalachiteMempool

theorem eq_of_countP_le_one {α : Type*} {p : α → Bool} {l : List α} (atMost : l.countP p ≤ 1)
    {x y : α} (hx : x ∈ l) (px : p x = true) (hy : y ∈ l) (py : p y = true) : x = y := by
  rw [List.countP_eq_length_filter] at atMost
  have inX := List.mem_filter.mpr ⟨hx, px⟩
  have inY := List.mem_filter.mpr ⟨hy, py⟩
  cases found : l.filter p with
  | nil => simp [found] at inX
  | cons z rest =>
      obtain rfl : rest = [] := by
        simpa [found] using atMost
      rw [found, List.mem_singleton] at inX inY
      rw [inX, inY]

namespace Node

theorem mem_replies {n : Node} {reply : PortId × Except MempoolError CheckTxOutcome} :
    reply ∈ n.replies ↔ ∃ r ∈ n.pool.log, reply ∈ r.replies := by
  rw [replies, List.mem_flatMap]

/-- A check result was sent by an app exactly when it was received. -/
theorem Tracked.mem_appSent_iff {config : MempoolConfig} {copies : Nat} {n : Node}
    (tracked : n.Tracked config copies) {tx : RawTx} {result : AppResult} {reply : Option PortId} :
    (∃ app, (app, .checkTxResult tx result reply) ∈ n.appSent) ↔
      .checkTxResult tx result reply ∈ n.received := by
  have isOutcome : ∀ msgs : List Msg, (tx, result, reply) ∈ msgs.filterMap Msg.outcome ↔
      .checkTxResult tx result reply ∈ msgs := by
    intro msgs
    rw [List.mem_filterMap]
    constructor
    · rintro ⟨msg, member, carries⟩
      cases msg with
      | checkTxResult tx' result' reply' =>
          simp only [Msg.outcome, Option.some.injEq, Prod.mk.injEq] at carries
          obtain ⟨rfl, rfl, rfl⟩ := carries
          exact member
      | subscribe | networkEvent | add | take | remove => cases carries
    · intro member
      exact ⟨_, member, rfl⟩
  rw [← isOutcome n.received, ← tracked.outcomes, isOutcome, List.mem_map]
  constructor
  · rintro ⟨app, member⟩
    exact ⟨_, member, rfl⟩
  · rintro ⟨⟨app, msg⟩, member, same⟩
    exact ⟨app, same ▸ member⟩

namespace Tracked

variable {config : MempoolConfig} {copies : Nat} {n : Node} {port : PortId} {tx : RawTx}

theorem tx_of_result (tracked : n.Tracked config copies) {r : Record} (member : r ∈ n.pool.log)
    {result : AppResult} (msg : r.msg = .checkTxResult tx result (some port)) :
    n.asked[port]? = some tx := by
  apply tracked.asked_of_returned
  exact List.mem_filterMap.mpr
    ⟨r, member, by simp [Record.returns, Msg.returns, msg, Msg.check, token]⟩

theorem tx_of_add (tracked : n.Tracked config copies) {r : Record} (member : r ∈ n.pool.log)
    (msg : r.msg = .add tx port) : n.asked[port]? = some tx := by
  apply mem_issued.mp
  rw [← tracked.requests, received]
  exact List.mem_filterMap.mpr
    ⟨_, List.mem_append_left _ (List.mem_map.mpr ⟨r, member, msg⟩), rfl⟩

end Tracked

namespace Single

variable {config : MempoolConfig} {n : Node} {port : PortId} {tx : RawTx}

theorem value_unique (single : n.Single config) {value value' : Except MempoolError CheckTxOutcome}
    (here : (port, value) ∈ n.replies) (there : (port, value') ∈ n.replies) : value = value' := by
  have once := single.port_once port
  have atMost : n.replies.countP (fun reply => reply.1 == port) ≤ 1 := by
    split at once <;> omega
  exact (Prod.mk.inj (eq_of_countP_le_one atMost here (by simp) there (by simp))).2

theorem reply_of_result (single : n.Single config) {r : Record} (member : r ∈ n.pool.log)
    {result : AppResult} (msg : r.msg = .checkTxResult tx result (some port)) :
    (port, verdict r.before result) ∈ n.replies := by
  refine mem_replies.mpr ⟨r, member, ?_⟩
  rw [single.answers r member]
  exact mem_repliesTo.mpr (.inr ⟨tx, result, msg, rfl, rfl⟩)

theorem reply_of_refusal (single : n.Single config) {r : Record} (member : r ∈ n.pool.log)
    (msg : r.msg = .add tx port) (full : config.maxPoolSize ≤ r.before.txs.length) :
    (port, .error (.mempoolFull r.before.txs.length config.maxPoolSize)) ∈ n.replies := by
  refine mem_replies.mpr ⟨r, member, ?_⟩
  rw [single.answers r member]
  exact mem_repliesTo.mpr (.inl ⟨tx, msg, full, rfl⟩)

/-- Where an answer comes from. -/
theorem reply_cases (single : n.Single config) (asked : n.asked[port]? = some tx)
    {value : Except MempoolError CheckTxOutcome} (replied : (port, value) ∈ n.replies) :
    (∃ r ∈ n.pool.log, r.msg = .add tx port ∧ config.maxPoolSize ≤ r.before.txs.length ∧
        value = .error (.mempoolFull r.before.txs.length config.maxPoolSize)) ∨
      ∃ r ∈ n.pool.log, ∃ result, r.msg = .checkTxResult tx result (some port) ∧
        value = verdict r.before result := by
  obtain ⟨r, member, inside⟩ := mem_replies.mp replied
  rw [single.answers r member] at inside
  rcases mem_repliesTo.mp inside with ⟨tx', msg, full, isValue⟩ | ⟨tx', result, msg, _, isValue⟩
  · obtain rfl := Option.some.inj (asked.symm.trans (single.tx_of_add member msg))
    exact .inl ⟨r, member, msg, full, isValue⟩
  · obtain rfl := Option.some.inj (asked.symm.trans (single.tx_of_result member msg))
    exact .inr ⟨r, member, result, msg, isValue⟩

/-- Once a port is used, no message holds it. -/
theorem not_held_of_reply (single : n.Single config)
    {value : Except MempoolError CheckTxOutcome} (replied : (port, value) ∈ n.replies) :
    ¬ n.Held port := by
  intro held
  have once := single.port_once port
  have used := answered_iff.mp ⟨value, replied⟩
  have referred := held_iff.mp held
  split at once <;> omega

/-! What an answer tells.  In each equivalence the answer's own source gives one
direction, and the uniqueness of the answer the other. -/

section Answers

variable {value : Except MempoolError CheckTxOutcome}

theorem full_iff (single : n.Single config) (asked : n.asked[port]? = some tx)
    (replied : (port, value) ∈ n.replies) (size maxSize : Nat) :
    value = .error (.mempoolFull size maxSize) ↔
      ∃ r ∈ n.pool.log, r.msg = .add tx port ∧ config.maxPoolSize ≤ r.before.txs.length ∧
        size = r.before.txs.length ∧ maxSize = config.maxPoolSize := by
  constructor
  · intro isFull
    rcases single.reply_cases asked replied with ⟨r, member, msg, full, source⟩ |
      ⟨r, member, result, msg, source⟩
    · simp only [isFull, Except.error.injEq, MempoolError.mempoolFull.injEq] at source
      exact ⟨r, member, msg, full, source.1, source.2⟩
    · exact absurd (source.symm.trans isFull) verdict_ne_full
  · intro ⟨r, member, msg, full, isSize, isMax⟩
    rw [isSize, isMax]
    exact single.value_unique replied (single.reply_of_refusal member msg full)

/-- Any answer but a refusal is the verdict on a check result. -/
theorem result_of_value (single : n.Single config) (asked : n.asked[port]? = some tx)
    (replied : (port, value) ∈ n.replies)
    (notFull : ∀ size maxSize, value ≠ .error (.mempoolFull size maxSize)) :
    ∃ r ∈ n.pool.log, ∃ result, r.msg = .checkTxResult tx result (some port) ∧
      verdict r.before result = value := by
  rcases single.reply_cases asked replied with ⟨_, _, _, _, source⟩ |
    ⟨r, member, result, msg, source⟩
  · exact absurd source (notFull _ _)
  · exact ⟨r, member, result, msg, source.symm⟩

theorem value_of_result (single : n.Single config) (replied : (port, value) ∈ n.replies)
    {r : Record} (member : r ∈ n.pool.log) {result : AppResult}
    (msg : r.msg = .checkTxResult tx result (some port)) : value = verdict r.before result :=
  single.value_unique replied (single.reply_of_result member msg)

theorem invalid_iff (single : n.Single config) (asked : n.asked[port]? = some tx)
    (replied : (port, value) ∈ n.replies) (reason : String) :
    value = .error (.invalidTransaction reason) ↔
      ∃ app, (app, .checkTxResult tx (.error reason) (some port)) ∈ n.appSent := by
  rw [single.mem_appSent_iff, received, List.mem_append, List.mem_map]
  constructor
  · intro invalid
    obtain ⟨r, member, result, msg, source⟩ :=
      single.result_of_value asked replied (by simp [invalid])
    obtain rfl := verdict_eq_invalid.mp (source.trans invalid)
    exact .inl ⟨r, member, msg⟩
  · intro sent
    rcases sent with ⟨r, member, msg⟩ | waiting
    · rw [single.value_of_result replied member msg]
      exact verdict_eq_invalid.mpr rfl
    · exact absurd ⟨tx, mem_checks_of_result waiting⟩ (single.not_held_of_reply replied)

theorem exists_iff (single : n.Single config) (asked : n.asked[port]? = some tx)
    (replied : (port, value) ∈ n.replies) (hash : TxHash) :
    value = .error (.txAlreadyExists hash) ↔
      ∃ r ∈ n.pool.log, ∃ outcome, r.msg = .checkTxResult tx (.ok outcome) (some port) ∧
        outcome.isValid = true ∧ outcome.hash = hash ∧ hash ∈ r.before.txHashes := by
  constructor
  · intro present
    obtain ⟨r, member, result, msg, source⟩ :=
      single.result_of_value asked replied (by simp [present])
    obtain ⟨outcome, rfl, valid, isHash, inPool⟩ := verdict_eq_exists.mp (source.trans present)
    exact ⟨r, member, outcome, msg, valid, isHash, inPool⟩
  · intro ⟨r, member, outcome, msg, valid, isHash, inPool⟩
    rw [single.value_of_result replied member msg]
    exact verdict_eq_exists.mpr ⟨outcome, rfl, valid, isHash, inPool⟩

theorem ok_iff (single : n.Single config) (asked : n.asked[port]? = some tx)
    (replied : (port, value) ∈ n.replies) (outcome : CheckTxOutcome) :
    value = .ok outcome ↔
      ∃ r ∈ n.pool.log, r.msg = .checkTxResult tx (.ok outcome) (some port) ∧
        ¬ (outcome.isValid = true ∧ outcome.hash ∈ r.before.txHashes) := by
  constructor
  · intro accepted
    obtain ⟨r, member, result, msg, source⟩ :=
      single.result_of_value asked replied (by simp [accepted])
    obtain ⟨rfl, notPresent⟩ := verdict_eq_ok.mp (source.trans accepted)
    exact ⟨r, member, msg, notPresent⟩
  · intro ⟨r, member, msg, notPresent⟩
    rw [single.value_of_result replied member msg]
    exact verdict_eq_ok.mpr ⟨rfl, notPresent⟩

theorem inserted_iff (single : n.Single config) (asked : n.asked[port]? = some tx)
    (replied : (port, value) ∈ n.replies) :
    (∃ outcome, outcome.isValid = true ∧ value = .ok outcome) ↔
      ∃ r ∈ n.pool.log, ∃ result hash, r.msg = .checkTxResult tx result (some port) ∧
        r.inserted = some (hash, tx) := by
  constructor
  · intro ⟨outcome, valid, accepted⟩
    obtain ⟨r, member, result, msg, source⟩ :=
      single.result_of_value asked replied (by simp [accepted])
    refine ⟨r, member, result, outcome.hash, msg, ?_⟩
    rw [(single.faithful r member).2.inserted_eq, msg]
    exact newcomer_eq_some_iff.mpr ⟨outcome, valid, source.trans accepted, rfl⟩
  · intro ⟨r, member, result, hash, msg, inserted⟩
    rw [(single.faithful r member).2.inserted_eq, msg] at inserted
    obtain ⟨outcome, valid, accepted, _⟩ := newcomer_eq_some_iff.mp inserted
    rw [single.value_of_result replied member msg]
    exact ⟨outcome, valid, accepted⟩

end Answers

end Single

/-- Each `Add` is answered at most once, and exactly once when nothing about it
    is in flight; the answer tells what happened to it. -/
theorem reply_tells_outcome (config : MempoolConfig) (labels : List Label) (n : Node)
    (ran : (system config).run (start OutputPort.unbounded 1) labels = some n)
    (port : PortId) (tx : RawTx) (asked : n.asked[port]? = some tx) :
    n.replies.countP (fun reply => reply.1 == port) ≤ 1 ∧
      (¬ n.InFlight port → n.replies.countP (fun reply => reply.1 == port) = 1) ∧
      ∀ value, (port, value) ∈ n.replies →
        (∀ size maxSize, value = .error (.mempoolFull size maxSize) ↔
          ∃ r ∈ n.pool.log, r.msg = .add tx port ∧ config.maxPoolSize ≤ r.before.txs.length ∧
            size = r.before.txs.length ∧ maxSize = config.maxPoolSize) ∧
        (∀ reason, value = .error (.invalidTransaction reason) ↔
          ∃ app, (app, .checkTxResult tx (.error reason) (some port)) ∈ n.appSent) ∧
        (∀ hash, value = .error (.txAlreadyExists hash) ↔
          ∃ r ∈ n.pool.log, ∃ outcome, r.msg = .checkTxResult tx (.ok outcome) (some port) ∧
            outcome.isValid = true ∧ outcome.hash = hash ∧ hash ∈ r.before.txHashes) ∧
        (∀ outcome, value = .ok outcome ↔
          ∃ r ∈ n.pool.log, r.msg = .checkTxResult tx (.ok outcome) (some port) ∧
            ¬ (outcome.isValid = true ∧ outcome.hash ∈ r.before.txHashes)) ∧
        ((∃ outcome, outcome.isValid = true ∧ value = .ok outcome) ↔
          ∃ r ∈ n.pool.log, ∃ result hash, r.msg = .checkTxResult tx result (some port) ∧
            r.inserted = some (hash, tx)) := by
  have single : n.Single config := run_single ran
  have lossless : n.Lossless := run_lossless ran
  have once := single.port_once port
  rw [if_pos (List.getElem?_eq_some_iff.mp asked).1, lossless.none_lost, List.countP_nil] at once
  refine ⟨by omega, ?_, ?_⟩
  · intro idle
    rw [inFlight_iff] at idle
    omega
  · intro value replied
    exact ⟨single.full_iff asked replied, single.invalid_iff asked replied,
      single.exists_iff asked replied, single.ok_iff asked replied,
      single.inserted_iff asked replied⟩

/-- One submission on its whole way to the pool. -/
def roundTrip : List Label :=
  [.add (Host.TestTx.serialize ⟨7⟩), .handle .calm, .forward 0, .app 0 Host.checkTx,
    .handle .calm]

theorem round_trip_answered_once :
    ∃ n, (system MempoolConfig.default).run (start OutputPort.unbounded 1) roundTrip = some n ∧
      n.asked[0]? = some (Host.TestTx.serialize ⟨7⟩) ∧
      n.replies.countP (fun reply => reply.1 == 0) = 1 := by
  refine ⟨_, rfl, rfl, (reply_tells_outcome MempoolConfig.default roundTrip _ rfl 0 _ rfl).2.1 ?_⟩
  exact mt inFlight_iff.mp (by decide)

end Node

end MalachiteMempool
