import MalachiteMempool.Pool.Handling
import MalachiteMempool.Pool.Log

/-! # Effects at most once

Duplicates are noticed only when a check result comes back, so any number of
requests for one hash may be under way.  Still, until a removal names the hash,
at most one of their results inserts, broadcasts and is answered with a valid
outcome: the one that inserts leaves the hash in the index, and only a removal
that names it takes it out again.
-/

namespace MalachiteMempool

/-- A check result with an outcome for this hash. -/
def Msg.resultFor (hash : TxHash) : Msg → Bool
  | .checkTxResult _ (.ok outcome) _ => outcome.hash == hash
  | _ => false

namespace Record

/-- This record put a transaction under this hash into the pool. -/
def inserts (hash : TxHash) (r : Record) : Bool := r.inserted.any (fun pair => pair.1 == hash)

/-- The broadcasts this record made on account of this hash. -/
def broadcastsFor (hash : TxHash) (r : Record) : List MempoolTransactionBatch :=
  if r.msg.resultFor hash then r.broadcasts else []

/-- The `Ok` replies with a valid outcome for this hash that this record sent. -/
def okRepliesFor (hash : TxHash) (r : Record) :
    List (PortId × Except MempoolError CheckTxOutcome) :=
  r.replies.filter (fun reply =>
    match reply.2 with
    | .ok outcome => outcome.isValid && outcome.hash == hash
    | .error _ => false)

end Record

section Counting

variable {α β : Type*} {p : α → Bool} {l : List α}

theorem countP_le_one (alone : ∀ front a between b back, l = front ++ a :: between ++ b :: back →
    p a = true → p b = false) : l.countP p ≤ 1 := by
  induction l with
  | nil => simp
  | cons a rest ih =>
      cases here : p a with
      | false =>
          rw [List.countP_cons_of_neg (by simp [here])]
          refine ih (fun front b between c back split => alone (a :: front) b between c back ?_)
          simp [split]
      | true =>
          have none_later : rest.countP p = 0 := by
            rw [List.countP_eq_zero]
            intro b member
            obtain ⟨between, back, rfl⟩ := List.append_of_mem member
            simp [alone [] a between b back rfl here]
          rw [List.countP_cons_of_pos here, none_later]

theorem length_flatMap_le_countP {f : α → List β}
    (each : ∀ a ∈ l, (f a).length ≤ if p a then 1 else 0) : (l.flatMap f).length ≤ l.countP p := by
  induction l with
  | nil => simp
  | cons a rest ih =>
      have here := each a List.mem_cons_self
      have there := ih (fun b member => each b (List.mem_cons_of_mem _ member))
      rw [List.flatMap_cons, List.length_append, List.countP_cons]
      omega

end Counting

theorem Record.inserts_iff {hash : TxHash} {r : Record} :
    r.inserts hash = true ↔ ∃ tx, r.inserted = some (hash, tx) := by
  simp [Record.inserts, Option.any_eq_true]

namespace Record.Handled

variable {config : MempoolConfig} {r : Record}

theorem faithful (handled : r.Handled config) (wired : r.msg ≠ .subscribe) : r.Faithful config :=
  ⟨wired, handled.2⟩

theorem effects_of_subscribe (handled : r.Handled config) (unwired : r.msg = .subscribe) :
    r.effects = [] := by
  obtain ⟨_, env, outcome, took, _, effects⟩ := handled
  rw [unwired] at took
  obtain rfl := Option.some.inj took
  exact effects.symm

/-- A broadcast is made only with an insertion. -/
theorem broadcastsFor_le (handled : r.Handled config) (hash : TxHash) :
    (r.broadcastsFor hash).length ≤ if r.inserts hash then 1 else 0 := by
  by_cases concerned : r.msg.resultFor hash = true
  · have wired : r.msg ≠ .subscribe := by
      intro unwired
      simp [unwired, Msg.resultFor] at concerned
    rw [broadcastsFor, if_pos concerned]
    rcases (handled.faithful wired).broadcast_cases with none_made |
      ⟨tx, result, port, msg, made, other, inserted⟩
    · simp [none_made]
    · have new := handled.2.inserted_eq.symm.trans inserted
      rw [msg] at new concerned
      obtain ⟨outcome, _, accepted, same⟩ := newcomer_eq_some_iff.mp new
      obtain ⟨rfl, _⟩ := verdict_eq_ok.mp accepted
      have isHash : other = hash := by
        rw [(Prod.mk.inj same).1]
        simpa [Msg.resultFor] using concerned
      rw [if_pos (inserts_iff.mpr ⟨tx, isHash ▸ inserted⟩), made]
      simp
  · simp [broadcastsFor, concerned]

/-- A valid outcome is reported only with an insertion. -/
theorem okRepliesFor_le (handled : r.Handled config) (hash : TxHash) :
    (r.okRepliesFor hash).length ≤ if r.inserts hash then 1 else 0 := by
  by_cases unwired : r.msg = .subscribe
  · simp [okRepliesFor, replies, handled.effects_of_subscribe unwired]
  · have inserted := handled.2.inserted_eq
    obtain ⟨_, env, outcome, took, _, effects⟩ := handled
    obtain ⟨answers, _⟩ := handleMsg_outside took unwired
    rw [effects] at answers
    by_cases inserting : r.inserts hash = true
    · rw [if_pos inserting, okRepliesFor, replies, answers]
      exact (List.length_filter_le _ _).trans (length_repliesTo_le config env.strong r.msg r.before)
    · rw [if_neg inserting, Nat.le_zero, List.length_eq_zero_iff, okRepliesFor,
        List.filter_eq_nil_iff]
      rintro ⟨port, value⟩ member valid
      rw [replies, answers] at member
      cases value with
      | error e => cases valid
      | ok reported =>
          simp only [Bool.and_eq_true, beq_iff_eq] at valid
          rcases mem_repliesTo.mp member with ⟨_, _, _, full⟩ | ⟨tx, result, msg, _, accepted⟩
          · cases full
          · refine inserting (inserts_iff.mpr ⟨tx, ?_⟩)
            rw [inserted, msg]
            exact newcomer_eq_some_iff.mpr ⟨reported, valid.1, accepted.symm, by rw [valid.2]⟩

end Record.Handled

/-- Between two insertions under a hash some removal names it. -/
theorem Recorded.inserts_le_one {config : MempoolConfig} {h : History}
    (recorded : Recorded config h) {hash : TxHash} {earlier segment later : List Record}
    (split : h.log = earlier ++ segment ++ later) (spared : ∀ r ∈ segment, ¬ r.msg.Drops hash) :
    segment.countP (Record.inserts hash) ≤ 1 := by
  apply countP_le_one
  rintro front r between r' back rfl first
  have handled : ∀ record ∈ front ++ r :: between ++ r' :: back, record.Handled config :=
    fun record member => recorded.handled record (by
      rw [split]
      exact List.mem_append_left _ (List.mem_append_right _ member))
  obtain ⟨tx, inserted⟩ := Record.inserts_iff.mp first
  have after := (handled r (by simp)).mem_after_of_inserted inserted
  have place : h.log = (earlier ++ front) ++ r :: between ++ r' :: (back ++ later) := by
    simp [split]
  have before : hash ∈ r'.before.txHashes := by
    refine recorded.relates (R := fun s t => hash ∈ s.txHashes → hash ∈ t.txHashes)
      (fun _ present => present) (fun first second present => second (first present)) place ?_ after
    intro record member present
    exact (handled record (by simp [member])).mem_after present (spared record (by simp [member]))
  rw [Bool.eq_false_iff]
  intro second
  obtain ⟨tx', inserted'⟩ := Record.inserts_iff.mp second
  rw [(handled r' (by simp)).2.inserted_eq] at inserted'
  exact newcomer_absent inserted' before

/-- In every run, between two removals that name a hash (and before the first,
    and after the last) at most one result inserts under the hash, at most one
    broadcast is made on its account, and at most one `Ok` with a valid outcome
    for it is sent. -/
theorem effects_at_most_once (config : MempoolConfig) (labels : List (Env × Msg)) :
    ∃ h, (actor config).run (History.init State.default) labels = some h ∧
      h.log.map Record.msg = labels.map Prod.snd ∧
      ∀ hash earlier segment later, h.log = earlier ++ segment ++ later →
        (∀ r ∈ segment, ¬ r.msg.Drops hash) →
          segment.countP (Record.inserts hash) ≤ 1 ∧
          (segment.flatMap (Record.broadcastsFor hash)).length ≤ 1 ∧
          (segment.flatMap (Record.okRepliesFor hash)).length ≤ 1 := by
  obtain ⟨h, _, ran, _⟩ := run_sound config labels (sound_init (s := State.default) rfl rfl)
  have recorded := run_recorded ran
  refine ⟨h, ran, run_msgs ran, fun hash earlier segment later split spared => ?_⟩
  have once := recorded.inserts_le_one split spared
  have handled : ∀ r ∈ segment, r.Handled config :=
    fun r member => recorded.handled r (by simp [split, member])
  exact ⟨once,
    (length_flatMap_le_countP fun r member => (handled r member).broadcastsFor_le hash).trans once,
    (length_flatMap_le_countP fun r member => (handled r member).okRepliesFor_le hash).trans once⟩

end MalachiteMempool
