import MalachiteMempool.Pool.Representation

/-! # The representation invariant over whole runs

A run is any sequence of messages in any surroundings, from the default state.
The log of handled messages says which transaction was inserted under which
hash and when; the invariant ties the pool to that log.
-/

namespace MalachiteMempool

open IndexedQueue

namespace Record

/-- The pair this step put into the pool, as seen from outside: the hash of the
    outcome was absent before and is present afterwards. -/
def inserted (r : Record) : Option (TxHash × RawTx) :=
  match r.msg with
  | .checkTxResult tx (.ok outcome) _ =>
      if !r.before.has outcome.hash && r.after.has outcome.hash then some (outcome.hash, tx)
      else none
  | _ => none

end Record

/-- The last insertion under this hash carried this transaction. -/
def MostRecentlyInserted (log : List Record) (hash : TxHash) (tx : RawTx) : Prop :=
  ∃ earlier record later, log = earlier ++ record :: later ∧
    record.inserted = some (hash, tx) ∧ ∀ r ∈ later, ∀ other, r.inserted ≠ some (hash, other)

/-- The pool stands for this queue, and each of its pairs is the most recent
    insertion under its hash. -/
structure Sound (h : History) (queue : List (TxHash × RawTx)) : Prop where
  represents : Represents h.state.txs h.state.txHashes queue
  recent : ∀ pair ∈ queue, MostRecentlyInserted h.log pair.1 pair.2

theorem sound_init {s : State} (txs : s.txs = []) (txHashes : s.txHashes = ∅) :
    Sound (History.init s) [] :=
  ⟨by simpa [History.init, txs, txHashes] using represents_nil, by simp⟩

theorem MostRecentlyInserted.step {log : List Record} {hash : TxHash} {tx : RawTx}
    (recent : MostRecentlyInserted log hash tx) {record : Record}
    (unrelated : ∀ other, record.inserted ≠ some (hash, other)) :
    MostRecentlyInserted (log ++ [record]) hash tx := by
  obtain ⟨earlier, found, later, rfl, insertion, last⟩ := recent
  refine ⟨earlier, found, later ++ [record], by simp, insertion, fun r member => ?_⟩
  rcases List.mem_append.mp member with old | new
  · exact last r old
  · obtain rfl := List.mem_singleton.mp new
    exact unrelated

/-- What is seen from outside is what the handler decided to do. -/
theorem inserted_eq_newcomer {s : State} {config : MempoolConfig} {env : Env} {msg : Msg}
    {handled : Handled} (ran : handleMsg config env msg s = some handled) (effects : List Effect) :
    (Record.mk s msg handled.state effects).inserted = newcomer msg s := by
  cases msg with
  | subscribe | networkEvent | add | take | remove => rfl
  | checkTxResult tx result reply =>
      obtain rfl := Option.some.inj ran
      have pool := handleCheckTxResult_pool env tx result
        (reply.map (fun port => ⟨port, env.strong port⟩)) reply s
      cases result with
      | error appError => rfl
      | ok outcome =>
          cases present : s.has outcome.hash with
          | true => simp [Record.inserted, newcomer, present]
          | false =>
              cases valid : outcome.isValid with
              | true =>
                  simp only [newcomer, valid, present, Bool.not_false, Bool.and_self, if_true]
                    at pool
                  simp [Record.inserted, newcomer, valid, State.has, pool.2]
              | false =>
                  simp only [newcomer, valid, Bool.false_and, Bool.false_eq_true, if_false] at pool
                  simp [Record.inserted, newcomer, valid, State.has, pool.2]

/-- The record was made by handling its message, in some surroundings. -/
def Record.Produced (config : MempoolConfig) (r : Record) : Prop :=
  ∃ env handled, handleMsg config env r.msg r.before = some handled ∧
    handled.state = r.after ∧ handled.effects = r.effects

theorem Record.Produced.inserted_eq {config : MempoolConfig} {r : Record}
    (produced : r.Produced config) : r.inserted = newcomer r.msg r.before := by
  obtain ⟨env, handled, took, after, effects⟩ := produced
  obtain ⟨before, msg, _, _⟩ := r
  simp only at after effects took
  subst after effects
  exact inserted_eq_newcomer took _

/-- One message keeps the invariant, and is always handled. -/
theorem Sound.handle {h : History} {queue : List (TxHash × RawTx)} (sound : Sound h queue)
    (config : MempoolConfig) (env : Env) (msg : Msg) :
    ∃ next, h.handle config env msg = some next ∧
      Sound next (nextQueue env.order msg h.state queue) := by
  obtain ⟨handled, ran, represented⟩ := handleMsg_represents sound.represents config env msg
  let record : Record := ⟨h.state, msg, handled.state, handled.effects⟩
  have insertion : record.inserted = newcomer msg h.state :=
    inserted_eq_newcomer ran handled.effects
  refine ⟨⟨handled.state, h.log ++ [record]⟩, by simp [History.handle, ran, record],
    ⟨represented, fun pair member => ?_⟩⟩
  -- an old pair stays the most recent one, since its hash was present
  have kept : pair ∈ queue → MostRecentlyInserted (h.log ++ [record]) pair.1 pair.2 := by
    intro old
    refine (sound.recent pair old).step (fun other same => ?_)
    rw [insertion] at same
    exact newcomer_absent same (sound.represents.mem_iff.mpr (List.mem_map_of_mem old))
  cases msg with
  | remove hashes =>
      have survived := (survivors_perm sound.represents env.order hashes).mem_iff.mp member
      exact kept (List.mem_of_mem_filter survived)
  | subscribe | networkEvent | add | take =>
      exact kept (by simpa [nextQueue, newcomer] using member)
  | checkTxResult tx result reply =>
      rcases List.mem_append.mp member with old | new
      · exact kept old
      · have isNew := Option.mem_toList.mp new
        exact ⟨h.log, record, [], rfl, insertion.trans isNew, by simp⟩

/-- No run of the actor stops, and every state it reaches is sound. -/
theorem run_sound (config : MempoolConfig) (labels : List (Env × Msg)) {h : History}
    {queue : List (TxHash × RawTx)} (sound : Sound h queue) :
    ∃ final queue', (actor config).run h labels = some final ∧ Sound final queue' := by
  induction labels generalizing h queue with
  | nil => exact ⟨h, queue, rfl, sound⟩
  | cons label rest ih =>
      obtain ⟨next, ran, sound⟩ := sound.handle config label.1 label.2
      obtain ⟨final, queue', ran', sound'⟩ := ih sound
      exact ⟨final, queue', ((actor config).run_cons_eq_some).mpr ⟨next, ran, ran'⟩, sound'⟩

/-- In every reachable state the index is a bijection between its hashes and
    the positions of the queue, and each position holds the transaction that
    was last inserted under its hash. -/
theorem index_bijective (config : MempoolConfig) (labels : List (Env × Msg)) :
    ∃ h, (actor config).run (History.init State.default) labels = some h ∧
      (∀ hash i, h.state.txHashes.lookup hash = some i → i < h.state.txs.length) ∧
      (∀ hash hash' i, h.state.txHashes.lookup hash = some i →
        h.state.txHashes.lookup hash' = some i → hash = hash') ∧
      (∀ i, i < h.state.txs.length → ∃ hash, h.state.txHashes.lookup hash = some i) ∧
      (∀ hash i, h.state.txHashes.lookup hash = some i →
        ∃ tx, h.state.txs[i]? = some tx ∧ MostRecentlyInserted h.log hash tx) := by
  obtain ⟨h, queue, ran, sound⟩ := run_sound config labels (sound_init (s := State.default) rfl rfl)
  have rep := sound.represents
  refine ⟨h, ran, fun _ _ => rep.lookup_lt, fun _ _ _ => rep.lookup_injective, ?_, ?_⟩
  · intro i inside
    have bounded : i < (queue.map Prod.fst).length := by simpa [rep.length_eq] using inside
    exact ⟨_, (rep.lookup_iff _ i).mpr (List.getElem?_eq_getElem bounded)⟩
  · intro hash i found
    obtain ⟨pair, atPosition, rfl⟩ : ∃ pair, queue[i]? = some pair ∧ pair.1 = hash := by
      simpa [List.getElem?_map, Option.map_eq_some_iff] using (rep.lookup_iff _ _).mp found
    exact ⟨pair.2, by simp [rep.items_eq, atPosition],
      sound.recent pair (List.mem_of_getElem? atPosition)⟩

/-- `remove` never panics: in every reachable state, whatever the hashes and
    the iteration order, no more positions are ignored than there are and every
    transaction it copies is in range. -/
theorem remove_never_panics (config : MempoolConfig) (labels : List (Env × Msg)) :
    ∃ h, (actor config).run (History.init State.default) labels = some h ∧
      ∀ (env : Env) (hashes : List TxHash),
        let forgotten := hashes.foldl forget (h.state.txHashes, ∅)
        forgotten.2.card ≤ h.state.txs.length ∧
        (∀ e ∈ env.order.arrange forgotten.1.entries, e.2 ∉ forgotten.2 →
          e.2 < h.state.txs.length) ∧
        remove env hashes h.state ≠ none := by
  obtain ⟨h, queue, ran, sound⟩ := run_sound config labels (sound_init (s := State.default) rfl rfl)
  have rep := sound.represents
  refine ⟨h, ran, fun env hashes => ⟨ignored_card_le rep hashes, ?_, ?_⟩⟩
  · intro e inside _
    rw [arrange_forgotten] at inside
    exact rep.lookup_lt (lookup_of_keptEntries rep inside).1
  · obtain ⟨next, removed, _⟩ := remove_represents rep env hashes
    simp [removed]

end MalachiteMempool
