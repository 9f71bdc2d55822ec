import MalachiteMempool.Pool.Invariant

/-! # The log of a run

Every record of the log is one handled message, and starts in the state that
the record before it left.  What holds between two records therefore follows
from what each message in between can do: a removal takes away only what it
names, and everything else only appends.
-/

namespace MalachiteMempool

open IndexedQueue

/-- Handling this message takes away what is under this hash. -/
def Msg.Drops (msg : Msg) (hash : TxHash) : Prop := ∃ hashes, msg = .remove hashes ∧ hash ∈ hashes

namespace Record

/-- The record was made by handling its message on a well-formed pool. -/
def Handled (config : MempoolConfig) (r : Record) : Prop :=
  (∃ queue, Represents r.before.txs r.before.txHashes queue) ∧ r.Produced config

namespace Handled

variable {config : MempoolConfig} {r : Record}

theorem represents (handled : r.Handled config) :
    ∃ order queue, Represents r.before.txs r.before.txHashes queue ∧
      Represents r.after.txs r.after.txHashes (nextQueue order r.msg r.before queue) := by
  obtain ⟨⟨queue, rep⟩, env, outcome, took, after, _⟩ := handled
  obtain ⟨outcome', took', rep'⟩ := handleMsg_represents rep config env r.msg
  obtain rfl := Option.some.inj (took.symm.trans took')
  exact ⟨env.order, queue, rep, after ▸ rep'⟩

/-- Only a removal that names a hash takes it away. -/
theorem mem_after (handled : r.Handled config) {hash : TxHash} (present : hash ∈ r.before.txHashes)
    (spared : ¬ r.msg.Drops hash) : hash ∈ r.after.txHashes := by
  obtain ⟨order, queue, rep, rep'⟩ := handled.represents
  obtain ⟨pair, member, rfl⟩ := List.mem_map.mp (rep.mem_iff.mp present)
  refine rep'.mem_iff.mpr (List.mem_map_of_mem ?_)
  cases msg : r.msg with
  | remove hashes =>
      have unnamed : pair.1 ∉ hashes := fun named => spared ⟨hashes, msg, named⟩
      refine (survivors_perm rep order hashes).mem_iff.mpr (List.mem_filter.mpr ⟨member, ?_⟩)
      exact decide_eq_true unnamed
  | subscribe | networkEvent | add | take | checkTxResult => exact List.mem_append_left _ member

/-- What a record inserts is there afterwards. -/
theorem mem_after_of_inserted (handled : r.Handled config) {hash : TxHash} {tx : RawTx}
    (inserts : r.inserted = some (hash, tx)) : hash ∈ r.after.txHashes := by
  rw [handled.2.inserted_eq] at inserts
  obtain ⟨order, queue, _, rep'⟩ := handled.represents
  refine rep'.mem_iff.mpr (List.mem_map.mpr ⟨(hash, tx), ?_, rfl⟩)
  cases msg : r.msg with
  | checkTxResult raw result reply =>
      rw [msg] at inserts
      exact List.mem_append_right _ (by simp [inserts])
  | subscribe | networkEvent | add | take | remove => simp [msg, newcomer] at inserts

/-- Without a removal the queue only grows at its end. -/
theorem txs_grow (handled : r.Handled config) (kept : ∀ hashes, r.msg ≠ .remove hashes) :
    r.before.txs <+: r.after.txs := by
  obtain ⟨order, queue, rep, rep'⟩ := handled.represents
  rw [rep.items_eq, rep'.items_eq]
  cases msg : r.msg with
  | remove hashes => exact absurd msg (kept hashes)
  | subscribe | networkEvent | add | take | checkTxResult =>
      exact (List.prefix_append _ _).map _

end Handled

end Record

/-- The log leads to the current state. -/
structure Recorded (config : MempoolConfig) (h : History) : Prop where
  sound : ∃ queue, Sound h queue
  handled : ∀ r ∈ h.log, r.Handled config
  linked : Transition.Linked Record.before Record.after h.log
  current : ∀ r ∈ h.log.getLast?, r.after = h.state

theorem recorded_init (config : MempoolConfig) : Recorded config (History.init State.default) where
  sound := ⟨[], sound_init rfl rfl⟩
  handled := by simp [History.init]
  linked := List.isChain_nil
  current := by simp [History.init]

theorem Recorded.step {config : MempoolConfig} {h next : History} {label : Env × Msg}
    (recorded : Recorded config h) (ran : (actor config).step h label = some next) :
    Recorded config next := by
  obtain ⟨queue, sound⟩ := recorded.sound
  obtain ⟨next', ran', sound'⟩ := sound.handle config label.1 label.2
  obtain rfl := Option.some.inj (ran'.symm.trans ran)
  obtain ⟨handled, took, rfl⟩ := Option.map_eq_some_iff.mp ran
  refine ⟨⟨_, sound'⟩, ?_, ?_, by simp⟩
  · intro r member
    rcases List.mem_append.mp member with old | new
    · exact recorded.handled r old
    · obtain rfl := List.mem_singleton.mp new
      exact ⟨⟨queue, sound.represents⟩, label.1, handled, took, rfl, rfl⟩
  · refine List.IsChain.append recorded.linked (List.isChain_singleton _) ?_
    intro r last r' first
    obtain rfl := Option.some.inj first
    exact recorded.current r last

theorem run_recorded {config : MempoolConfig} {labels : List (Env × Msg)} {h : History}
    (ran : (actor config).run (History.init State.default) labels = some h) : Recorded config h :=
  (actor config).run_induction (fun _ _ _ => Recorded.step) (recorded_init config) ran

/-- The log has one record for each message, in order. -/
theorem run_msgs {config : MempoolConfig} {labels : List (Env × Msg)} {h final : History}
    (ran : (actor config).run h labels = some final) :
    final.log.map Record.msg = h.log.map Record.msg ++ labels.map Prod.snd := by
  induction labels generalizing h with
  | nil =>
      obtain rfl := Option.some.inj ran
      simp
  | cons label rest ih =>
      obtain ⟨next, taken, ran⟩ := (actor config).run_cons_eq_some.mp ran
      obtain ⟨handled, _, rfl⟩ := Option.map_eq_some_iff.mp taken
      rw [ih ran]
      simp

/-- What all records between two of them respect relates the state the first
    left with the state the second found. -/
theorem Recorded.relates {config : MempoolConfig} {h : History} (recorded : Recorded config h)
    {R : State → State → Prop} (reflexive : ∀ s, R s s)
    (transitive : ∀ {a b c}, R a b → R b c → R a c) {earlier between later : List Record}
    {r r' : Record} (split : h.log = earlier ++ r :: between ++ r' :: later)
    (each : ∀ r ∈ between, R r.before r.after) : R r.after r'.before := by
  have grouped : h.log = earlier ++ ((r :: between ++ [r']) ++ later) := by simp [split]
  have linked := recorded.linked
  rw [grouped] at linked
  exact Transition.Linked.relates reflexive transitive linked.right_of_append.left_of_append each

end MalachiteMempool
