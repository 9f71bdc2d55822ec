import MalachiteMempool.Host.Codec
import MalachiteMempool.Node.Custody
import MalachiteMempool.Pool.Refinement

/-! # What a host node's pool contains

With the host application, whatever clients submit and peers gossip, only a
transaction that the check accepts gets into the pool, and it gets there under
its own hash.  So the index can be read off the queue, and a removal request
for a transaction names that transaction's bytes and no others.
-/

namespace MalachiteMempool

open Host IndexedQueue

/-- A pair that the host application lets into the pool. -/
def Host.Accepted (pair : TxHash × RawTx) : Prop :=
  ∃ t : TestTx, t.id ≠ 9999 ∧ pair = (t.hash.toTxHash, t.serialize)

namespace Host.Accepted

variable {pair : TxHash × RawTx}

theorem bytes_eq (accepted : Accepted pair) : pair.1.bytes = pair.2.bytes := by
  obtain ⟨t, _, rfl⟩ := accepted
  rfl

/-- A hash and a transaction of one number are accepted only together. -/
theorem hash_eq_iff (accepted : Accepted pair) (t : TestTx) :
    pair.1 = t.hash.toTxHash ↔ pair.2 = t.serialize := by
  obtain ⟨⟨hash⟩, ⟨bytes⟩⟩ := pair
  obtain rfl : hash = bytes := accepted.bytes_eq
  simp [TestTxHash.toTxHash, TestTx.hash, TestTx.serialize]

theorem check (accepted : Accepted pair) :
    ∃ t : TestTx, TestTx.deserialize pair.2.bytes = .ok t ∧
      checkTx pair.2 = .ok (TestCheckTxOutcome.success t.hash).outcome := by
  obtain ⟨t, allowed, rfl⟩ := accepted
  refine ⟨t, TestTx.deserialize_eq_ok.mpr rfl, checkTx_eq_ok.mpr ⟨t, rfl, ?_⟩⟩
  simp [TestCheckTxOutcome.outcome, allowed]

end Host.Accepted

/-- Among accepted pairs distinct hashes mean distinct transactions. -/
theorem accepted_nodup {queue : List (TxHash × RawTx)} (accepted : ∀ pair ∈ queue, Accepted pair)
    (keys : (queue.map Prod.fst).Nodup) : ((queue.map Prod.snd).map RawTx.bytes).Nodup := by
  have sameBytes :
      (queue.map Prod.snd).map RawTx.bytes = (queue.map Prod.fst).map TxHash.bytes := by
    rw [List.map_map, List.map_map]
    apply List.map_congr_left
    intro pair member
    exact (accepted pair member).bytes_eq.symm
  rw [sameBytes]
  apply keys.map
  rintro ⟨bytes⟩ ⟨bytes'⟩ rfl
  rfl

/-- Removing one number takes exactly its transaction out of the queue. -/
theorem survivors_accepted {s : State} {queue : List (TxHash × RawTx)}
    (rep : Represents s.txs s.txHashes queue) (accepted : ∀ pair ∈ queue, Accepted pair)
    (order : IterOrder TxHash) (t : TestTx) :
    ((survivors order [t.hash.toTxHash] s).map Prod.snd).Perm (s.txs.erase t.serialize) := by
  have distinct : s.txs.Nodup := by
    rw [rep.items_eq]
    exact (accepted_nodup accepted rep.keys_nodup).of_map _
  have sameTest : ∀ pair ∈ queue,
      decide (pair.1 ∉ [t.hash.toTxHash]) = (pair.2 != t.serialize) := by
    intro pair member
    simp [(accepted pair member).hash_eq_iff t, bne, BEq.beq]
  calc
    ((survivors order [t.hash.toTxHash] s).map Prod.snd).Perm
        ((queue.filter (fun pair => decide (pair.1 ∉ [t.hash.toTxHash]))).map Prod.snd) :=
      (survivors_perm rep order _).map _
    _ = (queue.filter (fun pair => pair.2 != t.serialize)).map Prod.snd := by
      rw [List.filter_congr sameTest]
    _ = s.txs.filter (fun tx => tx != t.serialize) := by
      rw [rep.items_eq, List.filter_map]
      rfl
    _ = s.txs.erase t.serialize := (distinct.erase_eq_filter _).symm

namespace Node

variable {config : MempoolConfig} {n : Node}

/-- Whatever a step inserted came back from the host's check. -/
theorem inserted_accepted (checked : n.Checked checkTx)
    (faithful : ∀ r ∈ n.pool.log, r.Faithful config) {r : Record} (member : r ∈ n.pool.log)
    {pair : TxHash × RawTx} (inserts : r.inserted = some pair) : Accepted pair := by
  rw [(faithful r member).2.inserted_eq] at inserts
  have received : r.msg ∈ n.received := List.mem_append_left _ (List.mem_map_of_mem member)
  cases msg : r.msg with
  | subscribe | networkEvent | add | take | remove => simp [msg, newcomer] at inserts
  | checkTxResult tx result reply =>
      rw [msg] at received inserts
      obtain rfl := checked tx result reply received
      cases verdict : checkTx tx with
      | error appError => simp [verdict, newcomer] at inserts
      | ok outcome =>
          simp only [verdict, newcomer] at inserts
          split at inserts
          · rename_i new
            obtain rfl := Option.some.inj inserts
            obtain ⟨t, rfl, rfl⟩ := checkTx_eq_ok.mp verdict
            have valid := (Bool.and_eq_true _ _).mp new
            exact ⟨t, of_decide_eq_true valid.1, rfl⟩
          · cases inserts

theorem queue_accepted (checked : n.Checked checkTx)
    (faithful : ∀ r ∈ n.pool.log, r.Faithful config) {queue : List (TxHash × RawTx)}
    (sound : Sound n.pool queue) : ∀ pair ∈ queue, Accepted pair := by
  intro pair member
  obtain ⟨earlier, r, later, split, inserts, _⟩ := sound.recent pair member
  exact inserted_accepted checked faithful (by simp [split]) inserts

theorem run_pool_sound {port : OutputPort} {subscribers : Nat} {labels : List Label}
    (ran : (system config).run (start port subscribers) labels = some n) :
    ∃ queue, Sound n.pool queue :=
  (system config).run_induction (fun _ _ _ => sound_step) ⟨[], sound_init rfl rfl⟩ ran

/-- In every reachable state of a host node each entry of the index pairs a
    transaction with its own bytes, which the check accepts; no bytes are in
    the queue twice; and a removal of one number removes that transaction if it
    is there and nothing else. -/
theorem host_content {port : OutputPort} {subscribers : Nat} {labels : List Label}
    (host : ∀ label ∈ labels, label.ChecksWith checkTx)
    (ran : (system config).run (start port subscribers) labels = some n) :
    (∀ hash i, n.pool.state.txHashes.lookup hash = some i →
      ∃ tx t, n.pool.state.txs[i]? = some tx ∧ hash.bytes = tx.bytes ∧ tx.bytes.length = 8 ∧
        TestTx.deserialize tx.bytes = .ok t ∧
        checkTx tx = .ok (TestCheckTxOutcome.success t.hash).outcome) ∧
    (n.pool.state.txs.map RawTx.bytes).Nodup ∧
    ∀ (t : TestTx) (env : Env), ∃ handled,
      handleMsg config env (appHandle checkTx (.remove [t.hash])) n.pool.state = some handled ∧
      handled.state.txs.Perm (n.pool.state.txs.erase t.serialize) ∧
      (∀ hash, content handled.state hash =
        if hash = t.hash.toTxHash then none else content n.pool.state hash) ∧
      handled.state.outputPort = n.pool.state.outputPort ∧ handled.effects = [] := by
  obtain ⟨queue, sound⟩ := run_pool_sound ran
  have accepted := queue_accepted (run_checked host ran) (run_tracked ran).faithful sound
  have rep := sound.represents
  refine ⟨?_, ?_, fun t env => ?_⟩
  · intro hash i found
    obtain ⟨pair, atPosition, rfl⟩ : ∃ pair, queue[i]? = some pair ∧ pair.1 = hash := by
      simpa [List.getElem?_map, Option.map_eq_some_iff] using (rep.lookup_iff _ _).mp found
    have mine := accepted pair (List.mem_of_getElem? atPosition)
    obtain ⟨t, read, checks⟩ := mine.check
    refine ⟨pair.2, t, by simp [rep.items_eq, atPosition], mine.bytes_eq, ?_, read, checks⟩
    rw [TestTx.deserialize_eq_ok.mp read]
    exact toLeBytes_length _
  · rw [rep.items_eq]
    exact accepted_nodup accepted rep.keys_nodup
  · obtain ⟨next, removed, samePort, rep'⟩ := remove_represents rep env [t.hash.toTxHash]
    refine ⟨_, removed, ?_, fun hash => ?_, samePort, rfl⟩
    · rw [rep'.items_eq]
      exact survivors_accepted rep accepted env.order t
    · rw [content_survivors rep rep']
      simp

/-- A peer's eight bytes get into the pool, its three bytes do not. -/
def strangers : List Label :=
  let message (bytes : Bytes) : Label :=
    .gossip (.message .mempool ⟨[]⟩ ⟨[]⟩ (.transactionBatch (batchOf ⟨bytes⟩)))
  let checked : List Label := [.handle .calm, .forward 0, .app 0 checkTx, .handle .calm]
  message [1, 2, 3] :: checked ++ message [7, 0, 0, 0, 0, 0, 0, 0] :: checked

theorem strangers_content :
    ∃ n, (system MempoolConfig.default).run (start OutputPort.default 1) strangers = some n ∧
      n.pool.state.txs = [TestTx.serialize ⟨7⟩] ∧
      ∀ env, ∃ handled,
        handleMsg MempoolConfig.default env (appHandle checkTx (.remove [TestTx.hash ⟨7⟩]))
          n.pool.state = some handled ∧ handled.state.txs = [] := by
  have host : ∀ label ∈ strangers, label.ChecksWith checkTx := by
    simp [strangers, Label.ChecksWith]
  have reached : ((system MempoolConfig.default).run (start OutputPort.default 1) strangers).map
      (fun n => n.pool.state.txs) = some [TestTx.serialize ⟨7⟩] := rfl
  obtain ⟨n, ran, txs⟩ := Option.map_eq_some_iff.mp reached
  refine ⟨n, ran, txs, fun env => ?_⟩
  obtain ⟨_, _, removal⟩ := host_content host ran
  obtain ⟨handled, removed, left, _⟩ := removal ⟨7⟩ env
  rw [txs, List.erase_cons_head] at left
  exact ⟨handled, removed, List.perm_nil.mp left⟩

end Node

end MalachiteMempool
