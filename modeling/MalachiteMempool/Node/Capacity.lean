import MalachiteMempool.Node.Steps
import MalachiteMempool.Pool.Refinement

/-! # The capacity of the pool

`add_tx` compares the pool with `max_pool_size` when a submission arrives, but
the transaction enters the pool only when its check result comes back, and
`handle_check_tx_result` does not compare again.  Any number of checks can be
under way in between, so a pool with one place left can admit two of them.

The bound holds through a run exactly when every result that inserts finds
room.  It is enough that each submission was admitted with room for itself and
for all checks under way.

The pool grows past its capacity at most by the number of checks that were ever
under way at once, less one.
-/

namespace MalachiteMempool

open IndexedQueue

theorem nextQueue_length_le {s : State} {queue : List (TxHash × RawTx)}
    (rep : Represents s.txs s.txHashes queue) (order : IterOrder TxHash) (msg : Msg) :
    (nextQueue order msg s queue).length ≤ queue.length + (newcomer msg s).toList.length := by
  cases msg with
  | remove hashes =>
      have shorter := survivors_length rep order hashes
      simp only [nextQueue]
      omega
  | subscribe | networkEvent | add | take | checkTxResult => simp [nextQueue]

theorem nextQueue_length_of_newcomer {s : State} (queue : List (TxHash × RawTx))
    (order : IterOrder TxHash) {msg : Msg} {pair : TxHash × RawTx}
    (new : newcomer msg s = some pair) :
    (nextQueue order msg s queue).length = queue.length + 1 := by
  cases msg with
  | remove | subscribe | networkEvent | add | take => cases new
  | checkTxResult tx result reply => simp [nextQueue, new]

/-- Only a check result can insert. -/
theorem newcomer_le_check (msg : Msg) (s : State) :
    (newcomer msg s).toList.length ≤ msg.check.toList.length := by
  cases msg with
  | subscribe | networkEvent | add | take | remove => exact Nat.le_refl 0
  | checkTxResult tx result reply =>
      cases newcomer (.checkTxResult tx result reply) s <;> simp [Msg.check]

namespace Node

def WithinCapacity (config : MempoolConfig) (n : Node) : Prop :=
  n.pool.state.txs.length ≤ config.maxPoolSize

/-- A result that inserts finds room. -/
def InsertsWithRoom (config : MempoolConfig) (n : Node) (label : Label) : Prop :=
  ∀ around msg rest pair, label = .handle around → n.mailbox = msg :: rest →
    newcomer msg n.pool.state = some pair → n.pool.state.txs.length < config.maxPoolSize

/-- A submission is admitted with room for itself and all checks under way. -/
def ReservesRoom (config : MempoolConfig) (n : Node) (label : Label) : Prop :=
  n.admitted config label ≠ 0 →
    n.pool.state.txs.length + n.checks.length + (n.admitted config label).card ≤ config.maxPoolSize

/-- What the capacity argument needs to know about a node. -/
structure Stocked (subscribers : Nat) (n : Node) : Prop where
  wired : n.Wired subscribers
  sound : ∃ queue, Sound n.pool queue

theorem stocked_start (port : OutputPort) (subscribers : Nat) :
    (start port subscribers).Stocked subscribers :=
  ⟨wired_start port subscribers, [], sound_init rfl rfl⟩

theorem Stocked.step {config : MempoolConfig} {subscribers : Nat} {n n' : Node} {label : Label}
    (stocked : n.Stocked subscribers) (h : step config n label = some n') :
    n'.Stocked subscribers :=
  ⟨stocked.wired.step h, sound_step stocked.sound h⟩

theorem withinCapacity_step {config : MempoolConfig} {subscribers : Nat} {n n' : Node}
    {label : Label} (stocked : n.Stocked subscribers) (within : n.WithinCapacity config)
    (h : step config n label = some n') :
    n'.WithinCapacity config ↔ n.InsertsWithRoom config label := by
  obtain ⟨_, queue, sound⟩ := stocked
  unfold WithinCapacity at *
  rcases handle_or_idle label with ⟨around, rfl⟩ | idle
  · obtain ⟨msg, rest, _, waiting, _, _⟩ := handle_cases h
    have sound' := sound_handle sound waiting h
    rw [sound'.represents.length_eq]
    have size := sound.represents.length_eq
    cases new : newcomer msg n.pool.state with
    | none =>
        have bound := nextQueue_length_le sound.represents around.order msg
        simp only [new, Option.toList_none, List.length_nil] at bound
        constructor
        · intro _ _ msg' rest' pair _ waiting' new'
          obtain ⟨rfl, rfl⟩ := List.cons.inj (waiting.symm.trans waiting')
          cases new.symm.trans new'
        · intro _
          omega
    | some pair =>
        rw [nextQueue_length_of_newcomer queue around.order new]
        constructor
        · intro fits _ _ _ _ _ _ _
          omega
        · intro room
          have := room around msg rest pair rfl waiting new
          omega
  · rw [(frame_step idle h).txs]
    constructor
    · intro _ around _ _ _ same
      exact absurd same (idle around)
    · intro _
      exact within

/-- Nothing leaves the lost checks again. -/
theorem lost_length_le {config : MempoolConfig} {n n' : Node} {label : Label}
    (settled : Msg.subscribe ∉ n.mailbox) (h : step config n label = some n') :
    n.lost.length ≤ n'.lost.length := by
  rcases port_cases settled h with ⟨sameLost, _, _⟩ | ⟨event, port, _⟩
  · simpa using (congrArg Multiset.card sameLost).ge
  · simp only [lost, List.length_map, port]
    exact Broadcast.Channel.missed_length_le_send _ _

theorem txs_growth {config : MempoolConfig} {subscribers : Nat} {n n' : Node} {label : Label}
    (stocked : n.Stocked subscribers) (h : step config n label = some n') :
    n'.pool.state.txs.length ≤ n.pool.state.txs.length + (n.returned label).card := by
  obtain ⟨_, queue, sound⟩ := stocked
  rcases handle_or_idle label with ⟨around, rfl⟩ | idle
  · obtain ⟨msg, rest, _, waiting, _, _⟩ := handle_cases h
    have sound' := sound_handle sound waiting h
    have bound := nextQueue_length_le sound.represents around.order msg
    have inserts := newcomer_le_check msg n.pool.state
    rw [sound'.represents.length_eq, sound.represents.length_eq]
    simp only [returned, waiting, List.head?_cons, Option.bind_some, Multiset.coe_card]
    omega
  · rw [(frame_step idle h).txs]
    omega

/-- The pool together with the checks under way stays within the capacity. -/
def Provided (config : MempoolConfig) (subscribers : Nat) (n : Node) : Prop :=
  n.Stocked subscribers ∧ n.pool.state.txs.length + n.checks.length ≤ config.maxPoolSize

theorem Provided.step {config : MempoolConfig} {subscribers : Nat} {n n' : Node} {label : Label}
    (provided : n.Provided config subscribers) (reserves : n.ReservesRoom config label)
    (h : Node.step config n label = some n') : n'.Provided config subscribers := by
  obtain ⟨stocked, fits⟩ := provided
  refine ⟨stocked.step h, ?_⟩
  have balance := congrArg Multiset.card (accounts_step stocked.wired.settled h)
  have growth := txs_growth stocked h
  have kept := lost_length_le stocked.wired.settled h
  simp only [Multiset.card_add, Multiset.coe_card] at balance
  by_cases idle : n.admitted config label = 0
  · rw [idle, Multiset.card_zero] at balance
    omega
  · have room := reserves idle
    omega

/-- The pool stays within its capacity through a run exactly when every result
    that inserts finds room, and does so whenever each submission was admitted
    with room for itself and all checks under way. -/
theorem capacity_kept_iff (config : MempoolConfig) (port : OutputPort) (subscribers : Nat)
    (labels : List Label) :
    ((system config).Always (WithinCapacity config) (start port subscribers) labels ↔
        (system config).Throughout (InsertsWithRoom config) (start port subscribers) labels) ∧
      ((system config).Throughout (ReservesRoom config) (start port subscribers) labels →
        (system config).Always (WithinCapacity config) (start port subscribers) labels) := by
  have initial := stocked_start port subscribers
  constructor
  · exact (system config).always_iff_throughout (fun _ _ _ => Stocked.step)
      (fun _ _ _ => withinCapacity_step) initial (Nat.zero_le _) labels
  · intro reserves
    have provided : (start port subscribers).Provided config subscribers := by
      refine ⟨initial, ?_⟩
      simp [start, checks, Node.port, History.init, State.default, OutputPort.subscribed,
        Broadcast.Channel.waiting]
    have always :=
      (system config).always_of_throughout (fun _ _ _ => Provided.step) provided reserves
    refine Transition.System.Always.imp _ (fun n provided => ?_) always
    have := provided.2
    unfold WithinCapacity
    omega

/-- Two submissions are admitted before the first result is handled. -/
def overlappingAdds : List Label :=
  let submit (id : UInt64) : Label := .add (Host.TestTx.serialize ⟨id⟩)
  [submit 1, submit 2, .handle .calm, .handle .calm, .forward 0, .forward 0,
    .app 0 Host.checkTx, .app 0 Host.checkTx, .handle .calm, .handle .calm]

/-- A pool for one transaction ends up with two. -/
theorem overlapping_adds_exceed_capacity :
    ∃ n, (system { MempoolConfig.default with maxPoolSize := 1 }).run
        (start OutputPort.default 1) overlappingAdds = some n ∧
      n.pool.state.txs.length = 2 ∧
      ¬ n.WithinCapacity { MempoolConfig.default with maxPoolSize := 1 } := by
  refine ⟨_, rfl, rfl, ?_⟩
  unfold WithinCapacity
  decide

/-- Whoever admits a submission finds room in the pool and brings no result. -/
theorem room_of_admitted {config : MempoolConfig} {n : Node} {label : Label}
    (admits : n.admitted config label ≠ 0) :
    n.pool.state.txs.length < config.maxPoolSize ∧ n.returned label = 0 := by
  cases label with
  | add | gossip | remove | take | appRemove | appTake | forward | app => exact absurd rfl admits
  | handle around =>
      simp only [admitted] at admits
      split at admits
      · rename_i check submits
        split at admits
        · exact absurd rfl admits
        · rename_i room
          refine ⟨Nat.not_le.mp room, ?_⟩
          obtain ⟨msg, first, isSubmission⟩ := Option.bind_eq_some_iff.mp submits
          simp only [returned, first, Option.bind_some]
          cases msg with
          | add | networkEvent => rfl
          | subscribe | checkTxResult | take | remove => cases isSubmission
      · exact absurd rfl admits

/-- Pool and checks under way, with at most `most` checks at any time. -/
def Overfull (config : MempoolConfig) (subscribers most : Nat) (n : Node) : Prop :=
  n.Stocked subscribers ∧ n.pool.state.txs.length + n.checks.length ≤ config.maxPoolSize - 1 + most

theorem Overfull.step {config : MempoolConfig} {subscribers most : Nat} {n n' : Node}
    {label : Label} (overfull : n.Overfull config subscribers most)
    (few : n'.checks.length ≤ most) (h : Node.step config n label = some n') :
    n'.Overfull config subscribers most := by
  obtain ⟨stocked, fits⟩ := overfull
  refine ⟨stocked.step h, ?_⟩
  have balance := congrArg Multiset.card (accounts_step stocked.wired.settled h)
  have growth := txs_growth stocked h
  have kept := lost_length_le stocked.wired.settled h
  simp only [Multiset.card_add, Multiset.coe_card] at balance
  by_cases idle : n.admitted config label = 0
  · rw [idle, Multiset.card_zero] at balance
    omega
  · obtain ⟨room, nothing⟩ := room_of_admitted idle
    rw [nothing, Multiset.card_zero] at growth
    omega

/-- If there are never more than `most` checks under way, the pool and the
    checks under way together never exceed the capacity by `most` or more. -/
theorem overshoot_below_checks (config : MempoolConfig) (port : OutputPort) (subscribers most : Nat)
    (labels : List Label)
    (few : (system config).Always (fun n => n.checks.length ≤ most) (start port subscribers)
      labels) :
    (system config).Always
      (fun n => n.pool.state.txs.length + n.checks.length ≤ config.maxPoolSize - 1 + most)
      (start port subscribers) labels := by
  have initial : (start port subscribers).Overfull config subscribers most := by
    refine ⟨stocked_start port subscribers, ?_⟩
    simp [start, checks, Node.port, History.init, State.default, OutputPort.subscribed,
      Broadcast.Channel.waiting]
  have always := (system config).always_under (fun _ _ _ => Overfull.step) initial few
  exact Transition.System.Always.imp _ (fun n overfull => overfull.2) always

/-- Two checks under way bring a pool for one transaction to two. -/
theorem overlapping_adds_overshoot :
    (system { MempoolConfig.default with maxPoolSize := 1 }).Always
      (fun n => n.pool.state.txs.length + n.checks.length ≤ 2) (start OutputPort.default 1)
      overlappingAdds := by
  apply overshoot_below_checks { MempoolConfig.default with maxPoolSize := 1 } OutputPort.default 1
    2 overlappingAdds
  decide +kernel

end Node

end MalachiteMempool
