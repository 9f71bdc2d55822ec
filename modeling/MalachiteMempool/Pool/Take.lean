import MalachiteMempool.Pool.Fifo
import MalachiteMempool.Pool.Log

/-! # What `Take` returns

`take` walks the queue and stops as soon as the budget is used up, which it
notices only after it has charged the transaction in hand.  So it returns the
longest front part whose total length stays below `max_txs_bytes`
(`le_length_takeTxs_iff`); everything else here follows from that.

The limit is never exceeded and a reply can only grow while nothing is removed.
But a transaction that fits exactly is left out, one that does not fit blocks
everything behind it, and `max_txs_per_block` is not a limit at all.
-/

namespace MalachiteMempool

open IndexedQueue

/-- The exact length of these transactions together. -/
def totalBytes (txs : List RawTx) : Nat := (txs.map RawTx.len).sum

@[simp] theorem totalBytes_cons (tx : RawTx) (txs : List RawTx) :
    totalBytes (tx :: txs) = tx.len + totalBytes txs := by
  simp [totalBytes]

theorem totalBytes_take_mono (txs : List RawTx) {j k : Nat} (le : j ≤ k) :
    totalBytes (txs.take j) ≤ totalBytes (txs.take k) := by
  have split := List.take_append_drop j (txs.take k)
  rw [List.take_take, Nat.min_eq_left le] at split
  rw [← split]
  simp [totalBytes]

theorem mul_le_totalBytes {least : Nat} {txs : List RawTx} (atLeast : ∀ tx ∈ txs, least ≤ tx.len) :
    txs.length * least ≤ totalBytes txs := by
  induction txs with
  | nil => simp
  | cons tx rest ih =>
      have here := atLeast tx List.mem_cons_self
      have there := ih (fun other member => atLeast other (List.mem_cons_of_mem _ member))
      rw [totalBytes_cons, List.length_cons, Nat.succ_mul]
      omega

/-! ## The loop -/

/-- The loop takes a transaction exactly when the total up to and with it stays
    below the budget. -/
theorem le_length_takeTxs_iff (budget : Nat) (txs : List RawTx) (k : Nat) :
    k ≤ (takeTxs budget txs).length ↔
      k ≤ txs.length ∧ (k = 0 ∨ totalBytes (txs.take k) < budget) := by
  induction txs generalizing budget k with
  | nil =>
      simp only [takeTxs, List.length_nil]
      omega
  | cons tx rest ih =>
      cases k with
      | zero => simp
      | succ k =>
          have rest_iff := ih (budget - tx.len) k
          have none_taken : k = 0 → totalBytes (rest.take k) = 0 := by
            rintro rfl
            rfl
          simp only [takeTxs, List.take_succ_cons, totalBytes_cons, List.length_cons]
          split
          · rw [List.length_nil]
            omega
          · rw [List.length_cons]
            omega

theorem length_takeTxs_le_iff (budget : Nat) (txs : List RawTx) (count : Nat) :
    (takeTxs budget txs).length ≤ count ↔
      txs.length ≤ count ∨ budget ≤ totalBytes (txs.take (count + 1)) := by
  have beyond := le_length_takeTxs_iff budget txs (count + 1)
  omega

theorem takeTxs_ne_nil_iff (budget : Nat) (tx : RawTx) (rest : List RawTx) :
    takeTxs budget (tx :: rest) ≠ [] ↔ tx.len < budget := by
  have first := le_length_takeTxs_iff budget (tx :: rest) 1
  rw [← List.length_pos_iff, Nat.lt_iff_add_one_le, first]
  simp [totalBytes]

theorem takeTxs_eq_take (budget : Nat) (txs : List RawTx) :
    takeTxs budget txs = txs.take (takeTxs budget txs).length :=
  List.prefix_iff_eq_take.mp (takeTxs_initial budget txs)

theorem totalBytes_takeTxs_le (budget : Nat) (txs : List RawTx) :
    totalBytes (takeTxs budget txs) ≤ budget := by
  obtain ⟨_, fits⟩ := (le_length_takeTxs_iff budget txs _).mp (Nat.le_refl _)
  rw [← takeTxs_eq_take] at fits
  rcases fits with none | below
  · rw [List.length_eq_zero_iff.mp none]
    exact Nat.zero_le budget
  · exact below.le

/-- A longer queue gives a longer reply. -/
theorem takeTxs_mono (budget : Nat) {txs longer : List RawTx} (grows : txs <+: longer) :
    takeTxs budget txs <+: takeTxs budget longer := by
  obtain ⟨within, fits⟩ := (le_length_takeTxs_iff budget txs _).mp (Nat.le_refl _)
  have same : longer.take (takeTxs budget txs).length = txs.take (takeTxs budget txs).length := by
    obtain ⟨rest, rfl⟩ := grows
    exact List.take_append_of_le_length within
  refine List.prefix_of_prefix_length_le ((takeTxs_initial budget txs).trans grows)
    (takeTxs_initial budget longer) ?_
  refine (le_length_takeTxs_iff budget longer _).mpr ⟨within.trans grows.length_le, ?_⟩
  rwa [same]

/-! ## The reply -/

section Reply

variable {config : MempoolConfig} {env : Env} {s : State} {port : PortId} {txs : List RawTx}

/-- The reply that handling a `Take` sends. -/
theorem take_effects : (take config env s port).effects = [.txs port txs] ↔
    txs = takeTxs config.maxTxsBytes s.txs := by
  simp only [take, List.cons.injEq, Effect.txs.injEq, true_and, and_true]
  exact eq_comm

theorem taken_of_record {r : Record} (handled : r.Handled config) (isTake : r.msg = .take port)
    (listed : .txs port txs ∈ r.effects) :
    txs = takeTxs config.maxTxsBytes r.before.txs ∧ r.after = r.before := by
  obtain ⟨_, env, outcome, took, after, effects⟩ := handled
  rw [isTake] at took
  obtain rfl := Option.some.inj took
  rw [← effects] at listed
  simp only [take, List.mem_singleton, Effect.txs.injEq, true_and] at listed
  exact ⟨listed, after.symm⟩

theorem listed_of_take {r : Record} (handled : r.Handled config) (isTake : r.msg = .take port) :
    .txs port (takeTxs config.maxTxsBytes r.before.txs) ∈ r.effects := by
  obtain ⟨_, env, outcome, took, _, effects⟩ := handled
  rw [isTake] at took
  obtain rfl := Option.some.inj took
  rw [← effects]
  exact List.mem_singleton_self _

end Reply

/-- Everything in the queue was inserted by some handled message. -/
theorem Sound.exists_inserted {h : History} {queue : List (TxHash × RawTx)} (sound : Sound h queue)
    {tx : RawTx} (queued : tx ∈ h.state.txs) :
    ∃ r ∈ h.log, ∃ hash, r.inserted = some (hash, tx) := by
  rw [sound.represents.items_eq] at queued
  obtain ⟨pair, member, rfl⟩ := List.mem_map.mp queued
  obtain ⟨earlier, r, later, split, inserted, _⟩ := sound.recent pair member
  exact ⟨r, by simp [split], pair.1, inserted⟩

/-- The reply of a `Take` is a front part of the queue within the byte budget,
    the pool stays as it is, and as long as nothing is removed each reply is a
    front part of every later one. -/
theorem take_within_budget_and_stable (config : MempoolConfig) :
    (∀ env s port, ∃ txs, (take config env s port).effects = [.txs port txs] ∧ txs <+: s.txs ∧
      totalBytes txs ≤ config.maxTxsBytes ∧
      (take config env s port).state.txs = s.txs ∧
      (take config env s port).state.txHashes = s.txHashes) ∧
    ∀ labels h, (actor config).run (History.init State.default) labels = some h →
      ∀ earlier r between r' later, h.log = earlier ++ r :: between ++ r' :: later →
        (∀ r ∈ between, ∀ hashes, r.msg ≠ .remove hashes) →
        ∀ port port' txs txs', r.msg = .take port → .txs port txs ∈ r.effects →
          r'.msg = .take port' → .txs port' txs' ∈ r'.effects → txs <+: txs' := by
  constructor
  · intro env s port
    exact ⟨_, take_effects.mpr rfl, takeTxs_initial _ _, totalBytes_takeTxs_le _ _, rfl, rfl⟩
  · intro labels h ran earlier r between r' later split kept port port' txs txs' isTake listed
      isTake' listed'
    have recorded := run_recorded ran
    have member : ∀ record ∈ r :: between ++ [r'], record ∈ h.log := by
      intro record inside
      rw [split]
      simp only [List.mem_append, List.mem_cons, List.not_mem_nil, or_false] at inside ⊢
      tauto
    obtain ⟨rfl, unchanged⟩ :=
      taken_of_record (recorded.handled r (member r (by simp))) isTake listed
    obtain ⟨rfl, _⟩ := taken_of_record (recorded.handled r' (member r' (by simp))) isTake' listed'
    apply takeTxs_mono
    rw [← unchanged]
    refine recorded.relates (R := fun s t => s.txs <+: t.txs) (fun _ => List.prefix_rfl)
      List.IsPrefix.trans split ?_
    intro record inside
    exact (recorded.handled record (member record (by simp [inside]))).txs_grow (kept record inside)

/-! ## A transaction at the front that does not fit -/

/-- In every reachable state a `Take` returns something as soon as the first
    queued transaction is smaller than the byte budget, and nothing when it is
    larger; so it returns something from every non-empty pool into which only
    smaller transactions were put. -/
theorem take_returns_fitting_front (config : MempoolConfig) (labels : List (Env × Msg)) :
    ∃ h, (actor config).run (History.init State.default) labels = some h ∧
      ∀ env port txs, (take config env h.state port).effects = [.txs port txs] →
        (∀ front rest, h.state.txs = front :: rest →
          (front.len < config.maxTxsBytes → txs ≠ []) ∧
            (config.maxTxsBytes < front.len → txs = [])) ∧
        ((∀ r ∈ h.log, ∀ hash tx, r.inserted = some (hash, tx) → tx.len < config.maxTxsBytes) →
          h.state.txs ≠ [] → txs ≠ []) := by
  obtain ⟨h, queue, ran, sound⟩ := run_sound config labels (sound_init (s := State.default) rfl rfl)
  refine ⟨h, ran, fun env port txs reply => ?_⟩
  obtain rfl := take_effects.mp reply
  constructor
  · intro front rest split
    rw [split]
    refine ⟨(takeTxs_ne_nil_iff _ front rest).mpr, fun larger => ?_⟩
    by_contra taken
    have smaller := (takeTxs_ne_nil_iff _ front rest).mp taken
    omega
  · intro small nonempty
    obtain ⟨front, rest, split⟩ := List.exists_cons_of_ne_nil nonempty
    have queued : front ∈ h.state.txs := by simp [split]
    obtain ⟨r, member, hash, inserted⟩ := sound.exists_inserted queued
    rw [split]
    exact (takeTxs_ne_nil_iff _ front rest).mpr (small r member hash front inserted)

/-- A valid transaction of five bytes is accepted where four are asked for. -/
def oversizedRun : List (Env × Msg) :=
  [(quiet, .checkTxResult ⟨[1, 2, 3, 4, 5]⟩ (.ok ⟨true, ⟨[1]⟩⟩) (some 0)), (quiet, .take 1)]

/-- It is answered with `Ok`, and every `Take` of the non-empty pool is empty. -/
theorem oversized_front_blocks_take :
    ∃ h, (actor { MempoolConfig.default with maxTxsBytes := 4 }).run
        (History.init State.default) oversizedRun = some h ∧
      h.log.map Record.effects = [[.broadcast (batchOf ⟨[1, 2, 3, 4, 5]⟩),
        .reply 0 (.ok ⟨true, ⟨[1]⟩⟩)], [.txs 1 []]] ∧
      h.state.txs ≠ [] ∧
      ∀ env port, (take { MempoolConfig.default with maxTxsBytes := 4 } env h.state port).effects =
        [.txs port []] :=
  ⟨_, rfl, rfl, List.cons_ne_nil _ _, fun _ _ => rfl⟩

/-! ## The number of transactions -/

/-- The reply of a `Take` has at most `max_txs_per_block` transactions. -/
def CountKept (config : MempoolConfig) (s : State) : Prop :=
  ∀ env port txs, (take config env s port).effects = [.txs port txs] →
    txs.length ≤ config.maxTxsPerBlock

/-- There are no more transactions than that, or one more of them already use up
    the byte budget. -/
def CountFits (config : MempoolConfig) (s : State) : Prop :=
  s.txs.length ≤ config.maxTxsPerBlock ∨
    config.maxTxsBytes ≤ totalBytes (s.txs.take (config.maxTxsPerBlock + 1))

theorem countKept_iff (config : MempoolConfig) (s : State) :
    CountKept config s ↔ CountFits config s := by
  rw [CountFits, ← length_takeTxs_le_iff]
  constructor
  · intro kept
    exact kept quiet 0 _ (take_effects.mpr rfl)
  · intro short env port txs reply
    obtain rfl := take_effects.mp reply
    exact short

/-- Transactions of average size leave no room for one too many. -/
theorem countFits_of_average {config : MempoolConfig} {s : State} {average : Nat}
    (positive : 0 < average) (derived : config.maxTxsPerBlock = config.maxTxsBytes / average)
    (atLeast : ∀ tx ∈ s.txs, average ≤ tx.len) : CountFits config s := by
  by_cases few : s.txs.length ≤ config.maxTxsPerBlock
  · exact .inl few
  · right
    have full : (s.txs.take (config.maxTxsPerBlock + 1)).length = config.maxTxsPerBlock + 1 := by
      rw [List.length_take]
      omega
    have least : (s.txs.take (config.maxTxsPerBlock + 1)).length * average ≤
        totalBytes (s.txs.take (config.maxTxsPerBlock + 1)) :=
      mul_le_totalBytes (fun tx member => atLeast tx (List.mem_of_mem_take member))
    have above := Nat.lt_mul_div_succ config.maxTxsBytes positive
    rw [full, Nat.mul_comm, derived] at least
    rw [derived]
    omega

/-- In every reachable state the count limit is kept exactly when the pool fits
    it, and so for every handled `Take`; and with the limit derived from an
    average size it is kept as long as nothing smaller than the average was put
    into the pool. -/
theorem take_count_kept_iff (config : MempoolConfig) (labels : List (Env × Msg)) :
    ∃ h, (actor config).run (History.init State.default) labels = some h ∧
      (CountKept config h.state ↔ CountFits config h.state) ∧
      ((∀ r ∈ h.log, ∀ port txs, r.msg = .take port → .txs port txs ∈ r.effects →
          txs.length ≤ config.maxTxsPerBlock) ↔
        ∀ r ∈ h.log, ∀ port, r.msg = .take port → CountFits config r.before) ∧
      ∀ average, 0 < average → config.maxTxsPerBlock = config.maxTxsBytes / average →
        (∀ r ∈ h.log, ∀ hash tx, r.inserted = some (hash, tx) → average ≤ tx.len) →
          CountKept config h.state := by
  obtain ⟨h, queue, ran, sound⟩ := run_sound config labels (sound_init (s := State.default) rfl rfl)
  have recorded := run_recorded ran
  refine ⟨h, ran, countKept_iff config h.state, ?_, ?_⟩
  · constructor
    · intro short r member port isTake
      have listed := listed_of_take (recorded.handled r member) isTake
      exact (length_takeTxs_le_iff _ _ _).mp (short r member port _ isTake listed)
    · intro fits r member port txs isTake listed
      obtain ⟨rfl, _⟩ := taken_of_record (recorded.handled r member) isTake listed
      exact (length_takeTxs_le_iff _ _ _).mpr (fits r member port isTake)
  · intro average positive derived atLeast
    refine (countKept_iff config h.state).mpr (countFits_of_average positive derived ?_)
    intro tx queued
    obtain ⟨r, member, hash, inserted⟩ := sound.exists_inserted queued
    exact atLeast r member hash tx inserted

/-- Three accepted transactions of one byte. -/
def smallRun : List (Env × Msg) :=
  let accepting (byte : UInt8) : Env × Msg :=
    (quiet, .checkTxResult ⟨[byte]⟩ (.ok ⟨true, ⟨[byte]⟩⟩) none)
  [accepting 1, accepting 2, accepting 3]

/-- A budget of eight bytes for transactions of four on average allows two of
    them, but a `Take` returns three. -/
theorem small_transactions_exceed_count :
    let config := { MempoolConfig.default with maxTxsBytes := 8, maxTxsPerBlock := 8 / 4 }
    ∃ h, (actor config).run (History.init State.default) smallRun = some h ∧
      (take config quiet h.state 0).effects = [.txs 0 [⟨[1]⟩, ⟨[2]⟩, ⟨[3]⟩]] ∧
      ¬ CountKept config h.state := by
  refine ⟨_, rfl, rfl, fun kept => ?_⟩
  have short := kept quiet 0 _ rfl
  exact absurd short (by decide)

/-! ## The whole budget -/

/-- A reply that stops short of the queue and of the count limit leaves out a
    transaction that would exceed the byte budget. -/
def UsesWholeBudget (config : MempoolConfig) (s : State) : Prop :=
  ∀ env port txs, (take config env s port).effects = [.txs port txs] →
    txs.length < s.txs.length → txs.length < config.maxTxsPerBlock →
      config.maxTxsBytes < totalBytes (s.txs.take (txs.length + 1))

/-- No front part of the queue within the count limit fits the budget exactly. -/
def NoExactFit (config : MempoolConfig) (s : State) : Prop :=
  ∀ count, 0 < count → count ≤ s.txs.length → count ≤ config.maxTxsPerBlock →
    totalBytes (s.txs.take count) ≠ config.maxTxsBytes

/-- The byte budget is used up exactly when no front part of the queue fits it
    exactly: the loop leaves out the transaction that would complete it. -/
theorem uses_whole_budget_iff_no_exact_fit (config : MempoolConfig) (s : State) :
    UsesWholeBudget config s ↔ NoExactFit config s := by
  constructor
  · intro whole count positive queued allowed exact_fit
    -- the reply stops before the front part that fits exactly is complete
    have short : (takeTxs config.maxTxsBytes s.txs).length < count := by
      have reached := le_length_takeTxs_iff config.maxTxsBytes s.txs count
      omega
    have above := whole quiet 0 _ (take_effects.mpr rfl) (by omega) (by omega)
    have below : totalBytes (s.txs.take ((takeTxs config.maxTxsBytes s.txs).length + 1)) ≤
        totalBytes (s.txs.take count) := totalBytes_take_mono s.txs short
    omega
  · intro none_exact env port txs reply proper allowed
    obtain rfl := take_effects.mp reply
    have next := le_length_takeTxs_iff config.maxTxsBytes s.txs
      ((takeTxs config.maxTxsBytes s.txs).length + 1)
    have differs := none_exact ((takeTxs config.maxTxsBytes s.txs).length + 1) (by omega) (by omega)
      (by omega)
    omega

/-- Two accepted transactions of two bytes. -/
def exactRun : List (Env × Msg) :=
  [(quiet, .checkTxResult ⟨[1, 2]⟩ (.ok ⟨true, ⟨[1]⟩⟩) none),
    (quiet, .checkTxResult ⟨[3, 4]⟩ (.ok ⟨true, ⟨[2]⟩⟩) none)]

/-- They fit four bytes exactly, but only one is returned. -/
theorem exact_fit_left_out :
    let config := { MempoolConfig.default with maxTxsBytes := 4 }
    ∃ h, (actor config).run (History.init State.default) exactRun = some h ∧
      (take config quiet h.state 0).effects = [.txs 0 [⟨[1, 2]⟩]] ∧
      totalBytes h.state.txs = 4 ∧ ¬ UsesWholeBudget config h.state := by
  refine ⟨_, rfl, rfl, rfl, fun whole => ?_⟩
  have above := whole quiet 0 _ rfl (by decide) (by decide)
  exact absurd above (by decide)

end MalachiteMempool
