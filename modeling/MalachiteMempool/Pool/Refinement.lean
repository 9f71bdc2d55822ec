import MalachiteMempool.Pool.Invariant
import Mathlib.Data.Finset.Dedup

/-! # The pool as a finite map

Abstractly the pool is a map from hashes to transactions, and a message either
adds one pair, restricts the map, or leaves it alone.  The concrete pool
refines that map step by step, so the iteration orders of the hash map, which
decide where a transaction stands in the queue, never show in it.
-/

namespace MalachiteMempool

open IndexedQueue

/-- The abstract pool. -/
abbrev PoolMap := TxHash → Option RawTx

/-- What the concrete pool stands for. -/
def content (s : State) : PoolMap :=
  fun hash => (s.txHashes.lookup hash).bind (fun i => s.txs[i]?)

/-- The abstract meaning of a message. -/
def specStep (pool : PoolMap) (msg : Msg) : PoolMap :=
  match msg with
  | .checkTxResult tx (.ok outcome) _ =>
      if outcome.isValid ∧ pool outcome.hash = none then
        Function.update pool outcome.hash (some tx)
      else pool
  | .remove hashes => fun hash => if hash ∈ hashes then none else pool hash
  | _ => pool

theorem content_iff {s : State} {queue : List (TxHash × RawTx)}
    (rep : Represents s.txs s.txHashes queue) {hash : TxHash} {tx : RawTx} :
    content s hash = some tx ↔ (hash, tx) ∈ queue :=
  rep.value_iff

theorem content_eq_none_iff {s : State} {queue : List (TxHash × RawTx)}
    (rep : Represents s.txs s.txHashes queue) {hash : TxHash} :
    content s hash = none ↔ s.has hash = false := by
  rw [State.has, decide_eq_false_iff_not, rep.mem_iff, Option.eq_none_iff_forall_ne_some]
  simp only [ne_eq, content_iff rep, List.mem_map, Prod.exists, exists_and_right, exists_eq_right,
    not_exists]

theorem content_push {s next : State} {queue : List (TxHash × RawTx)} {hash : TxHash} {tx : RawTx}
    (rep : Represents s.txs s.txHashes queue)
    (rep' : Represents next.txs next.txHashes (queue ++ [(hash, tx)])) :
    content next = Function.update (content s) hash (some tx) := by
  have absent : hash ∉ queue.map Prod.fst := by
    have distinct := rep'.keys_nodup
    rw [List.map_append, List.nodup_append] at distinct
    exact fun member => distinct.2.2 hash member hash (by simp) rfl
  funext other
  apply Option.ext
  intro value
  rw [content_iff rep', List.mem_append, List.mem_singleton, Prod.mk.injEq]
  by_cases same : other = hash
  · subst same
    have notOld : (other, value) ∉ queue := fun member => absent (List.mem_map_of_mem member)
    simp only [notOld, true_and, false_or, Function.update_self, Option.some.injEq]
    exact eq_comm
  · simp only [same, false_and, or_false, Function.update_of_ne same, content_iff rep]

theorem content_survivors {s next : State} {queue : List (TxHash × RawTx)}
    {order : IterOrder TxHash} {hashes : List TxHash}
    (rep : Represents s.txs s.txHashes queue)
    (rep' : Represents next.txs next.txHashes (survivors order hashes s)) :
    content next = fun hash => if hash ∈ hashes then none else content s hash := by
  funext hash
  apply Option.ext
  intro value
  rw [content_iff rep', (survivors_perm rep order hashes).mem_iff, List.mem_filter]
  by_cases named : hash ∈ hashes
  · simp [named]
  · simp [named, content_iff rep]

theorem content_congr {s next : State} {queue : List (TxHash × RawTx)}
    (rep : Represents s.txs s.txHashes queue)
    (rep' : Represents next.txs next.txHashes queue) : content next = content s := by
  funext hash
  apply Option.ext
  intro value
  rw [content_iff rep, content_iff rep']

/-- One step of the simulation. -/
theorem content_nextQueue {s next : State} {queue : List (TxHash × RawTx)}
    {order : IterOrder TxHash}
    {msg : Msg} (rep : Represents s.txs s.txHashes queue)
    (rep' : Represents next.txs next.txHashes (nextQueue order msg s queue)) :
    content next = specStep (content s) msg := by
  cases msg with
  | remove hashes => exact content_survivors rep rep'
  | subscribe | networkEvent | add | take =>
      exact content_congr rep (by simpa [nextQueue, newcomer] using rep')
  | checkTxResult tx result reply =>
      cases result with
      | error appError => exact content_congr rep (by simpa [nextQueue, newcomer] using rep')
      | ok outcome =>
          simp only [nextQueue, newcomer] at rep'
          simp only [specStep, content_eq_none_iff rep]
          cases valid : outcome.isValid with
          | false => exact content_congr rep (by simpa [valid] using rep')
          | true =>
              cases present : s.has outcome.hash with
              | true => exact content_congr rep (by simpa [valid, present] using rep')
              | false =>
                  simp only [and_self, if_true]
                  exact content_push rep (by simpa [valid, present] using rep')

/-- The simulation over whole runs. -/
theorem run_content (config : MempoolConfig) (labels : List (Env × Msg)) {h : History}
    {queue : List (TxHash × RawTx)} (sound : Sound h queue) :
    ∃ final queue', (actor config).run h labels = some final ∧ Sound final queue' ∧
      content final.state = (labels.map Prod.snd).foldl specStep (content h.state) := by
  induction labels generalizing h queue with
  | nil => exact ⟨h, queue, rfl, sound, rfl⟩
  | cons label rest ih =>
      obtain ⟨next, ran, sound'⟩ := sound.handle config label.1 label.2
      obtain ⟨final, queue', ran', sound'', folded⟩ := ih sound'
      refine ⟨final, queue', ((actor config).run_cons_eq_some).mpr ⟨next, ran, ran'⟩, sound'', ?_⟩
      rw [folded, List.map_cons, List.foldl_cons,
        content_nextQueue sound.represents sound'.represents]

/-- A removal shortens the queue by the number of distinct hashes it finds. -/
theorem survivors_length {s : State} {queue : List (TxHash × RawTx)}
    (rep : Represents s.txs s.txHashes queue) (order : IterOrder TxHash) (hashes : List TxHash) :
    (survivors order hashes s).length +
        (hashes.toFinset.filter (fun hash => content s hash ≠ none)).card = queue.length := by
  have named : hashes.toFinset.filter (fun hash => content s hash ≠ none) =
      ((queue.filter (fun pair => decide (pair.1 ∈ hashes))).map Prod.fst).toFinset := by
    ext hash
    have present : content s hash ≠ none ↔ ∃ tx, (hash, tx) ∈ queue := by
      rw [Option.ne_none_iff_exists']
      simp only [content_iff rep]
    simp only [Finset.mem_filter, List.mem_toFinset, present, List.mem_map, List.mem_filter,
      decide_eq_true_eq, Prod.exists, exists_and_right, exists_eq_right]
    exact and_comm.trans (by simp)
  have distinct : ((queue.filter (fun pair => decide (pair.1 ∈ hashes))).map Prod.fst).Nodup :=
    rep.keys_nodup.sublist (List.filter_sublist.map _)
  rw [named, List.toFinset_card_of_nodup distinct, List.length_map,
    (survivors_perm rep order hashes).length_eq]
  have split := List.length_eq_length_filter_add (l := queue) (fun pair => decide (pair.1 ∈ hashes))
  simp only [← decide_not] at split
  omega

/-- A message that neither removes nor brings an acceptable transaction leaves
    the queue as it is. -/
theorem nextQueue_eq_self {s : State} {msg : Msg} (queue : List (TxHash × RawTx))
    (order : IterOrder TxHash) (notRemove : ∀ hashes, msg ≠ .remove hashes)
    (notAdding : ∀ tx outcome reply, msg = .checkTxResult tx (.ok outcome) reply →
      outcome.isValid = false ∨ outcome.hash ∈ s.txHashes.keys) :
    nextQueue order msg s queue = queue := by
  cases msg with
  | remove hashes => exact absurd rfl (notRemove hashes)
  | subscribe | networkEvent | add | take => simp [nextQueue, newcomer]
  | checkTxResult tx result reply =>
      cases result with
      | error appError => simp [nextQueue, newcomer]
      | ok outcome =>
          rcases notAdding tx outcome reply rfl with invalid | present
          · simp [nextQueue, newcomer, invalid]
          · have isThere : s.has outcome.hash = true := by
              simpa [State.has, AList.mem_keys] using present
            simp [nextQueue, newcomer, isThere]

/-- The pool refines a finite map from hashes to transactions: from every
    reachable state a message adds exactly its pair, restricts the map, or
    leaves it unchanged, and the map after a run is determined by the
    messages alone. -/
theorem pool_refines_map (config : MempoolConfig) (labels : List (Env × Msg)) :
    ∃ h, (actor config).run (History.init State.default) labels = some h ∧
      (∀ hash, content h.state hash ≠ none ↔ hash ∈ h.state.txHashes.keys) ∧
      (∀ env msg, ∃ next, h.handle config env msg = some next ∧
        (∀ tx outcome reply, msg = .checkTxResult tx (.ok outcome) reply →
          outcome.isValid = true → outcome.hash ∉ h.state.txHashes.keys →
            content next.state = Function.update (content h.state) outcome.hash (some tx) ∧
            next.state.txs.length = h.state.txs.length + 1) ∧
        ((∀ hashes, msg ≠ .remove hashes) →
          (∀ tx outcome reply, msg = .checkTxResult tx (.ok outcome) reply →
            outcome.isValid = false ∨ outcome.hash ∈ h.state.txHashes.keys) →
            content next.state = content h.state ∧
            next.state.txs.length = h.state.txs.length) ∧
        (∀ hashes, msg = .remove hashes →
          (content next.state = fun hash => if hash ∈ hashes then none else content h.state hash) ∧
          next.state.txs.length +
              (hashes.toFinset.filter (fun hash => content h.state hash ≠ none)).card =
            h.state.txs.length)) ∧
      (∀ labels', labels'.map Prod.snd = labels.map Prod.snd →
        ∃ h', (actor config).run (History.init State.default) labels' = some h' ∧
          content h'.state = content h.state) := by
  have initial : Sound (History.init State.default) [] := sound_init rfl rfl
  obtain ⟨h, queue, ran, sound, folded⟩ := run_content config labels initial
  have rep := sound.represents
  have domain : ∀ hash, content h.state hash ≠ none ↔ hash ∈ h.state.txHashes.keys := by
    intro hash
    rw [ne_eq, content_eq_none_iff rep, State.has, decide_eq_false_iff_not, not_not, AList.mem_keys]
  refine ⟨h, ran, domain, fun env msg => ?_, fun labels' same => ?_⟩
  · obtain ⟨next, handled, sound'⟩ := sound.handle config env msg
    have simulated := content_nextQueue rep sound'.represents
    refine ⟨next, handled, ?_, ?_, ?_⟩
    · rintro tx outcome reply rfl valid absent
      have absent' := not_not.mp (mt (domain outcome.hash).mp absent)
      have notHas := (content_eq_none_iff rep).mp absent'
      refine ⟨by simp [simulated, specStep, valid, absent'], ?_⟩
      rw [sound'.represents.length_eq, rep.length_eq]
      simp [nextQueue, newcomer, valid, notHas]
    · intro notRemove notAdding
      have rep' := sound'.represents
      rw [nextQueue_eq_self queue env.order notRemove notAdding] at rep'
      exact ⟨content_congr rep rep', by rw [rep'.length_eq, rep.length_eq]⟩
    · rintro hashes rfl
      refine ⟨simulated, ?_⟩
      rw [sound'.represents.length_eq, rep.length_eq]
      exact survivors_length rep env.order hashes
  · obtain ⟨h', _, ran', _, folded'⟩ := run_content config labels' initial
    exact ⟨h', ran', by rw [folded', folded, same]⟩

end MalachiteMempool
