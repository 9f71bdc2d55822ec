import MalachiteMempool.Node.Steps
import MalachiteMempool.Pool.Log
import MalachiteMempool.Pool.Refinement

/-! # The log determines the pool

Along every run of a node, the map the pool stands for is what one gets by
replaying the handled messages on the empty map, at the end of the log and at
every record in it.  Where a hash is found therefore depends on the messages
before it alone.
-/

namespace MalachiteMempool

open IndexedQueue

/-- The abstract pool after these messages. -/
def replay (msgs : List Msg) : PoolMap := msgs.foldl specStep (fun _ => none)

theorem replay_append (first second : List Msg) :
    replay (first ++ second) = second.foldl specStep (replay first) := by
  rw [replay, List.foldl_append, replay]

/-- Handling this message can put something under this hash. -/
def Msg.Offers (msg : Msg) (hash : TxHash) : Prop :=
  ∃ tx outcome reply, msg = .checkTxResult tx (.ok outcome) reply ∧ outcome.isValid = true ∧
    outcome.hash = hash

theorem specStep_keeps {pool : PoolMap} {msg : Msg} {hash : TxHash} (present : pool hash ≠ none)
    (spared : ¬ msg.Drops hash) : specStep pool msg hash = pool hash := by
  cases msg with
  | subscribe | networkEvent | add | take => rfl
  | remove hashes =>
      have unnamed : hash ∉ hashes := fun named => spared ⟨hashes, rfl, named⟩
      simp [specStep, unnamed]
  | checkTxResult tx result reply =>
      cases result with
      | error appError => rfl
      | ok outcome =>
          simp only [specStep]
          split
          · rename_i inserts
            have other : hash ≠ outcome.hash := fun same => present (same ▸ inserts.2)
            exact Function.update_of_ne other _ _
          · rfl

theorem specStep_absent {pool : PoolMap} {msg : Msg} {hash : TxHash} (absent : pool hash = none)
    (offers : ¬ msg.Offers hash) : specStep pool msg hash = none := by
  cases msg with
  | subscribe | networkEvent | add | take => exact absent
  | remove hashes => simp [specStep, absent]
  | checkTxResult tx result reply =>
      cases result with
      | error appError => exact absent
      | ok outcome =>
          simp only [specStep]
          split
          · rename_i inserts
            have other : hash ≠ outcome.hash := fun same =>
              offers ⟨tx, outcome, reply, rfl, inserts.1, same.symm⟩
            rw [Function.update_of_ne other]
            exact absent
          · exact absent

theorem foldl_specStep_keeps {msgs : List Msg} {pool : PoolMap} {hash : TxHash}
    (present : pool hash ≠ none) (spared : ∀ msg ∈ msgs, ¬ msg.Drops hash) :
    msgs.foldl specStep pool hash = pool hash := by
  induction msgs generalizing pool with
  | nil => rfl
  | cons msg rest ih =>
      have kept := specStep_keeps present (spared msg (by simp))
      rw [List.foldl_cons, ih (by rwa [kept]) (fun m inside => spared m (by simp [inside])), kept]

theorem foldl_specStep_absent {msgs : List Msg} {pool : PoolMap} {hash : TxHash}
    (absent : pool hash = none) (offers : ∀ msg ∈ msgs, ¬ msg.Offers hash) :
    msgs.foldl specStep pool hash = none := by
  induction msgs generalizing pool with
  | nil => exact absent
  | cons msg rest ih =>
      exact ih (specStep_absent absent (offers msg (by simp)))
        (fun m inside => offers m (by simp [inside]))

/-- A message that offers a hash leaves something under it. -/
theorem specStep_offered {pool : PoolMap} {msg : Msg} {hash : TxHash} (offers : msg.Offers hash) :
    specStep pool msg hash ≠ none := by
  obtain ⟨tx, outcome, reply, rfl, valid, rfl⟩ := offers
  cases found : pool outcome.hash with
  | none => simp [specStep, valid, found]
  | some other => simp [specStep, found]

/-- What the log says about the pool, now and at every record. -/
structure Replayed (h : History) : Prop where
  sound : ∃ queue, Sound h queue
  current : content h.state = replay (h.log.map Record.msg)
  indexed : ∀ r ∈ h.log, ∃ queue, Represents r.before.txs r.before.txHashes queue
  before : ∀ i r, h.log[i]? = some r → content r.before = replay ((h.log.take i).map Record.msg)
  after : ∀ i r, h.log[i]? = some r →
    content r.after = replay ((h.log.take (i + 1)).map Record.msg)

theorem replayed_init {s : State} (txs : s.txs = []) (txHashes : s.txHashes = ∅) :
    Replayed (History.init s) where
  sound := ⟨[], sound_init txs txHashes⟩
  current := by
    funext hash
    simp [History.init, content, replay, txHashes]
  indexed := by simp [History.init]
  before := by simp [History.init]
  after := by simp [History.init]

/-- An element of a list with one more at its end is an old one or the last. -/
theorem getElem?_concat_cases {α : Type*} {l : List α} {x y : α} {i : Nat}
    (found : (l ++ [x])[i]? = some y) :
    (i < l.length ∧ l[i]? = some y) ∨ (i = l.length ∧ y = x) := by
  rcases Nat.lt_trichotomy i l.length with inside | rfl | beyond
  · rw [List.getElem?_append_left inside] at found
    exact .inl ⟨inside, found⟩
  · simp only [List.getElem?_concat_length, Option.some.injEq] at found
    exact .inr ⟨rfl, found.symm⟩
  · have bound := (List.getElem?_eq_some_iff.mp found).1
    simp only [List.length_append, List.length_singleton] at bound
    omega

theorem Replayed.handle {config : MempoolConfig} {env : Env} {msg : Msg} {h next : History}
    (replayed : Replayed h) (ran : h.handle config env msg = some next) : Replayed next := by
  obtain ⟨queue, sound⟩ := replayed.sound
  obtain ⟨next', ran', sound'⟩ := sound.handle config env msg
  obtain rfl := Option.some.inj (ran.symm.trans ran')
  obtain ⟨handled, took, isNext⟩ := Option.map_eq_some_iff.mp ran
  subst isNext
  have moved : content handled.state = specStep (content h.state) msg :=
    content_nextQueue sound.represents sound'.represents
  have latest : content handled.state = replay (h.log.map Record.msg ++ [msg]) := by
    rw [moved, replayed.current, replay_append]
    rfl
  -- an old record keeps its place in the log, the new one stands at its end
  refine ⟨⟨_, sound'⟩, by simpa using latest, ?_, ?_, ?_⟩
  · intro r member
    rcases List.mem_append.mp member with old | new
    · exact replayed.indexed r old
    · obtain rfl := List.mem_singleton.mp new
      exact ⟨queue, sound.represents⟩
  · intro i r found
    rcases getElem?_concat_cases found with ⟨inside, old⟩ | ⟨rfl, rfl⟩
    · rw [List.take_append_of_le_length (by omega)]
      exact replayed.before i r old
    · simpa using replayed.current
  · intro i r found
    rcases getElem?_concat_cases found with ⟨inside, old⟩ | ⟨rfl, rfl⟩
    · rw [List.take_append_of_le_length (by omega)]
      exact replayed.after i r old
    · rw [List.take_of_length_le (by simp)]
      simpa using latest

/-- A hash is in the index of a past state exactly when the messages before
    left something under it. -/
theorem Replayed.mem_before_iff {h : History} (replayed : Replayed h) {i : Nat} {r : Record}
    (found : h.log[i]? = some r) {hash : TxHash} :
    hash ∈ r.before.txHashes ↔ replay ((h.log.take i).map Record.msg) hash ≠ none := by
  obtain ⟨queue, rep⟩ := replayed.indexed r (List.mem_of_getElem? found)
  rw [← replayed.before i r found, ne_eq, content_eq_none_iff rep, State.has,
    decide_eq_false_iff_not, not_not]

namespace Node

theorem replayed_step {config : MempoolConfig} {n n' : Node} {label : Label}
    (replayed : Replayed n.pool) (h : step config n label = some n') : Replayed n'.pool := by
  rcases handle_or_idle label with ⟨around, rfl⟩ | idle
  · obtain ⟨msg, rest, handled, waiting, took, rfl⟩ := handle_cases h
    have ran : n.pool.handle config (n.env around) msg = some ⟨handled.state,
        n.pool.log ++ [⟨n.pool.state, msg, handled.state, handled.effects⟩]⟩ := by
      simp [History.handle, took]
    exact replayed.handle ran
  · have frame := frame_step idle h
    obtain ⟨queue, sound⟩ := replayed.sound
    refine ⟨⟨queue, frame.sound sound⟩, ?_, ?_, ?_, ?_⟩
    · rw [frame.log, ← replayed.current]
      funext hash
      simp only [content, frame.txs, frame.txHashes]
    · rw [frame.log]
      exact replayed.indexed
    · rw [frame.log]
      exact replayed.before
    · rw [frame.log]
      exact replayed.after

theorem run_replayed {config : MempoolConfig} {port : OutputPort} {subscribers : Nat}
    {labels : List Label} {n : Node}
    (ran : (system config).run (start port subscribers) labels = some n) : Replayed n.pool :=
  (system config).run_induction (fun _ _ _ => replayed_step) (replayed_init rfl rfl) ran

end Node

end MalachiteMempool
