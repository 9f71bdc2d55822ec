import MalachiteMempool.Pool.Refinement

/-! # Acceptance order

`handle_check_tx_result` appends, so insertions keep the queue in the order in
which transactions were accepted.  `remove` rebuilds the queue by walking the
hash index, so the survivors stand in whatever order the hash map hands its
entries out.  The queue stays in acceptance order through a run exactly when
each removal happens to walk the surviving entries by increasing position.
-/

namespace MalachiteMempool

open IndexedQueue

/-- A removal drops the named hashes; any other message appends what it
    inserted, if anything. -/
def follow (live : List (TxHash × RawTx)) (msg : Msg) (inserted : Option (TxHash × RawTx)) :
    List (TxHash × RawTx) :=
  match msg with
  | .remove hashes => live.filter (fun pair => decide (pair.1 ∉ hashes))
  | _ => live ++ inserted.toList

/-- The transactions inserted and not removed since, in the order of their
    insertion. -/
def accepted (log : List Record) : List (TxHash × RawTx) :=
  log.foldl (fun live r => follow live r.msg r.inserted) []

/-- The transaction inserted under the first hash stands before that inserted
    under the second. -/
def StandsBefore (s : State) (a b : TxHash × RawTx) : Prop :=
  ∃ i j, i < j ∧ s.txHashes.lookup a.1 = some i ∧ s.txs[i]? = some a.2 ∧
    s.txHashes.lookup b.1 = some j ∧ s.txs[j]? = some b.2

/-- Whatever was accepted earlier stands earlier, and so does what a `Take`
    would list now. -/
structure AcceptanceOrder (config : MempoolConfig) (h : History) : Prop where
  fifo : ∀ a b, [a, b].Sublist (accepted h.log) → StandsBefore h.state a b
  taken : takeTxs config.maxTxsBytes h.state.txs <+: (accepted h.log).map Prod.snd

/-- When this step is a removal, the hash map hands out the entries it does not
    name by increasing position. -/
def IteratesInOrder (h : History) (label : Env × Msg) : Prop :=
  ∀ hashes, label.2 = .remove hashes →
    (keptEntries label.1.order hashes h.state).Pairwise (fun a b => a.2 < b.2)

@[simp] theorem accepted_snoc (log : List Record) (r : Record) :
    accepted (log ++ [r]) = follow (accepted log) r.msg r.inserted := by
  simp [accepted, List.foldl_append]

theorem takeTxs_initial (budget : Nat) (txs : List RawTx) : takeTxs budget txs <+: txs := by
  induction txs generalizing budget with
  | nil => exact List.prefix_rfl
  | cons tx rest ih =>
      simp only [takeTxs]
      split
      · exact List.nil_prefix
      · exact List.cons_prefix_cons.mpr ⟨rfl, ih _⟩

theorem standsBefore_iff {s : State} {queue : List (TxHash × RawTx)}
    (rep : Represents s.txs s.txHashes queue) {a b : TxHash × RawTx} :
    StandsBefore s a b ↔ ∃ i j : Nat, i < j ∧ queue[i]? = some a ∧ queue[j]? = some b := by
  have at_iff : ∀ (pair : TxHash × RawTx) i,
      s.txHashes.lookup pair.1 = some i ∧ s.txs[i]? = some pair.2 ↔ queue[i]? = some pair := by
    intro pair i
    rw [rep.lookup_iff, rep.items_eq, List.getElem?_map, List.getElem?_map]
    cases queue[i]? with
    | none => simp
    | some found => simp [Prod.ext_iff]
  constructor
  · intro ⟨i, j, below, ha, ta, hb, tb⟩
    exact ⟨i, j, below, (at_iff a i).mp ⟨ha, ta⟩, (at_iff b j).mp ⟨hb, tb⟩⟩
  · intro ⟨i, j, below, ha, hb⟩
    obtain ⟨ha, ta⟩ := (at_iff a i).mpr ha
    obtain ⟨hb, tb⟩ := (at_iff b j).mpr hb
    exact ⟨i, j, below, ha, ta, hb, tb⟩

/-- A queue that holds the accepted transactions is in acceptance order only
    when it is the list of accepted transactions itself. -/
theorem acceptanceOrder_iff {h : History} {queue : List (TxHash × RawTx)}
    (rep : Represents h.state.txs h.state.txHashes queue) (perm : queue.Perm (accepted h.log))
    (config : MempoolConfig) : AcceptanceOrder config h ↔ queue = accepted h.log := by
  have ordered : queue.Pairwise (StandsBefore h.state) := by
    apply List.pairwise_iff_getElem.mpr
    intro i j hi hj below
    exact (standsBefore_iff rep).mpr
      ⟨i, j, below, List.getElem?_eq_getElem hi, List.getElem?_eq_getElem hj⟩
  have asymmetric : ∀ a b, StandsBefore h.state a b → StandsBefore h.state b a → a = b := by
    intro a b ⟨i, j, below, ha, _, hb, _⟩ ⟨j', i', below', hb', _, ha', _⟩
    rw [ha] at ha'
    rw [hb] at hb'
    obtain rfl := Option.some.inj ha'
    obtain rfl := Option.some.inj hb'
    omega
  constructor
  · intro order
    have inLog : (accepted h.log).Pairwise (StandsBefore h.state) :=
      List.pairwise_iff_forall_sublist.mpr (fun {a b} sub => order.fifo a b sub)
    exact perm.eq_of_pairwise (fun a b _ _ => asymmetric a b) ordered inLog
  · intro same
    refine ⟨fun a b sub => ?_, ?_⟩
    · rw [← same] at sub
      exact List.pairwise_iff_forall_sublist.mp ordered sub
    · rw [← same, ← rep.items_eq]
      exact takeTxs_initial _ _

theorem survivors_keys {s : State} {queue : List (TxHash × RawTx)}
    (rep : Represents s.txs s.txHashes queue) (order : IterOrder TxHash) (hashes : List TxHash) :
    (survivors order hashes s).map Prod.fst = (keptEntries order hashes s).map Sigma.fst := by
  have resolved : ∀ e ∈ keptEntries order hashes s,
      (resolve s.txs e).map Prod.fst = some e.1 := by
    intro e inside
    have inRange := rep.lookup_lt (lookup_of_keptEntries rep inside).1
    simp [resolve, List.getElem?_eq_getElem inRange]
  rw [survivors, List.map_filterMap, List.filterMap_congr resolved, ← List.filterMap_eq_map]
  rfl

/-- A removal keeps the survivors in place exactly when it walks them by
    increasing position. -/
theorem survivors_eq_filter_iff {s : State} {queue : List (TxHash × RawTx)}
    (rep : Represents s.txs s.txHashes queue) (order : IterOrder TxHash) (hashes : List TxHash) :
    survivors order hashes s = queue.filter (fun pair => decide (pair.1 ∉ hashes)) ↔
      (keptEntries order hashes s).Pairwise (fun a b => a.2 < b.2) := by
  have perm := keptEntries_perm rep order hashes
  have increasing := (entriesOf_increasing queue).filter (fun e => decide (e.1 ∉ hashes))
  constructor
  · intro same
    have keys : (keptEntries order hashes s).map Sigma.fst =
        ((entriesOf queue).filter (fun e => decide (e.1 ∉ hashes))).map Sigma.fst := by
      rw [← survivors_keys rep, same]
      calc
        (queue.filter (fun pair => decide (pair.1 ∉ hashes))).map Prod.fst
          = (queue.map Prod.fst).filter (fun hash => decide (hash ∉ hashes)) := by
            rw [List.filter_map]
            rfl
        _ = _ := by
            rw [← entriesOf_keys, List.filter_map]
            rfl
    -- a hash has one position, so entries are determined by their hashes
    let place : TxHash → Entry TxHash := fun hash => ⟨hash, (s.txHashes.lookup hash).getD 0⟩
    have placed : ∀ e ∈ (entriesOf queue).filter (fun e => decide (e.1 ∉ hashes)),
        place e.1 = e := by
      intro e inside
      have found := (rep.lookup_iff _ _).mpr (mem_entriesOf.mp (List.mem_of_mem_filter inside))
      simp [place, found]
    have replaced := congrArg (List.map place) keys
    have unchanged : ∀ entries : List (Entry TxHash), (∀ e ∈ entries, place e.1 = e) →
        (entries.map Sigma.fst).map place = entries := by
      intro entries all
      rw [List.map_map]
      exact (List.map_congr_left all).trans (List.map_id entries)
    rw [unchanged _ (fun e inside => placed e (perm.mem_iff.mp inside)), unchanged _ placed]
      at replaced
    rw [replaced]
    exact increasing
  · intro ordered
    have same := perm.eq_of_pairwise (fun a b _ _ below above => absurd below (by omega))
      ordered increasing
    rw [survivors, same, rep.items_eq]
    exact filterMap_resolve_entriesOf queue (fun hash => decide (hash ∉ hashes))

/-- The queue holds the accepted transactions, in some order. -/
def HoldsAccepted (h : History) : Prop :=
  ∃ queue, Represents h.state.txs h.state.txHashes queue ∧ queue.Perm (accepted h.log)

theorem handle_accepted {h next : History} {queue : List (TxHash × RawTx)}
    (rep : Represents h.state.txs h.state.txHashes queue) {config : MempoolConfig} {env : Env}
    {msg : Msg} (ran : h.handle config env msg = some next) :
    Represents next.state.txs next.state.txHashes (nextQueue env.order msg h.state queue) ∧
      accepted next.log = follow (accepted h.log) msg (newcomer msg h.state) := by
  obtain ⟨handled, took, represented⟩ := handleMsg_represents rep config env msg
  simp only [History.handle, took, Option.map_some, Option.some.injEq] at ran
  subst ran
  exact ⟨represented, by rw [accepted_snoc, inserted_eq_newcomer took]⟩

theorem HoldsAccepted.step {h next : History} {config : MempoolConfig} {label : Env × Msg}
    (holds : HoldsAccepted h) (ran : (actor config).step h label = some next) :
    HoldsAccepted next := by
  obtain ⟨queue, rep, perm⟩ := holds
  obtain ⟨env, msg⟩ := label
  obtain ⟨rep', log⟩ := handle_accepted rep ran
  refine ⟨_, rep', ?_⟩
  rw [log]
  cases msg with
  | remove hashes => exact (survivors_perm rep env.order hashes).trans (perm.filter _)
  | subscribe | networkEvent | add | take | checkTxResult => exact perm.append_right _

theorem acceptanceOrder_step {h next : History} {config : MempoolConfig} {label : Env × Msg}
    (holds : HoldsAccepted h) (order : AcceptanceOrder config h)
    (ran : (actor config).step h label = some next) :
    AcceptanceOrder config next ↔ IteratesInOrder h label := by
  obtain ⟨queue, rep, perm⟩ := holds
  obtain rfl := (acceptanceOrder_iff rep perm config).mp order
  obtain ⟨env, msg⟩ := label
  obtain ⟨queue', rep', perm'⟩ := HoldsAccepted.step ⟨_, rep, perm⟩ ran
  obtain ⟨represented, log⟩ := handle_accepted rep ran
  obtain rfl := represented.unique rep'
  rw [acceptanceOrder_iff rep' perm', log]
  cases msg with
  | remove hashes =>
      simp only [nextQueue, follow, IteratesInOrder, Msg.remove.injEq]
      rw [survivors_eq_filter_iff rep]
      exact ⟨fun ordered _ same => same ▸ ordered, fun ordered => ordered hashes rfl⟩
  | subscribe | networkEvent | add | take | checkTxResult =>
      simp [nextQueue, follow, IteratesInOrder]

/-- Acceptance order survives a run exactly when every removal in it walks the
    surviving entries by increasing position. -/
theorem acceptance_order_iff_ordered_iteration (config : MempoolConfig)
    (labels : List (Env × Msg)) :
    (actor config).Always (AcceptanceOrder config) (History.init State.default) labels ↔
      (actor config).Throughout IteratesInOrder (History.init State.default) labels := by
  have initial : Represents (History.init State.default).state.txs
      (History.init State.default).state.txHashes [] := represents_nil
  have holds : HoldsAccepted (History.init State.default) := ⟨[], initial, List.Perm.refl _⟩
  have ordered : AcceptanceOrder config (History.init State.default) :=
    (acceptanceOrder_iff initial (List.Perm.refl _) config).mpr rfl
  exact (actor config).always_iff_throughout (fun _ _ _ => HoldsAccepted.step)
    (fun _ _ _ => acceptanceOrder_step) holds ordered labels

/-- Nothing unusual around the actor; the hash map hands out its newest entry
    first. -/
def quiet : Env where
  order := IterOrder.stored TxHash
  strong := fun _ => 1
  closed := fun _ => false
  networkUp := true

/-- Three accepted transactions, the last of which is then removed. -/
def scrambledRun : List (Env × Msg) :=
  let accepting (byte : UInt8) : Env × Msg :=
    (quiet, .checkTxResult ⟨[byte]⟩ (.ok ⟨true, ⟨[byte]⟩⟩) none)
  [accepting 1, accepting 2, accepting 3, (quiet, .remove [⟨[3]⟩])]

/-- The two survivors of `scrambledRun` have changed places. -/
theorem removal_scrambles_survivors :
    ∃ h, (actor MempoolConfig.default).run (History.init State.default) scrambledRun = some h ∧
      accepted h.log = [(⟨[1]⟩, ⟨[1]⟩), (⟨[2]⟩, ⟨[2]⟩)] ∧ h.state.txs = [⟨[2]⟩, ⟨[1]⟩] ∧
      ¬ StandsBefore h.state (⟨[1]⟩, ⟨[1]⟩) (⟨[2]⟩, ⟨[2]⟩) := by
  refine ⟨_, rfl, rfl, rfl, ?_⟩
  intro ⟨i, j, below, first, _, second, _⟩
  have at_one : i = 1 := Option.some.inj (first.symm.trans rfl)
  have at_zero : j = 0 := Option.some.inj (second.symm.trans rfl)
  omega

end MalachiteMempool
