import MalachiteMempool.Pool.Fifo

/-! # One transaction at a time

For each hash the pool is a register: a valid result fills it if it is empty,
and a removal empties it.  What the messages say about other hashes, their
capacity checks, their replies and the iteration orders have no influence on it.

So messages about different transactions may be handled in any order, and the
pools they lead to hold the same transactions.
-/

namespace MalachiteMempool

open IndexedQueue

/-- What a message can do about one hash. -/
inductive Change where
  | offer (tx : RawTx)
  | drop
  deriving DecidableEq, Repr

/-- What a message says about this hash. -/
def Msg.change (hash : TxHash) : Msg → Option Change
  | .checkTxResult tx (.ok outcome) _ =>
      if outcome.isValid ∧ outcome.hash = hash then some (.offer tx) else none
  | .remove hashes => if hash ∈ hashes then some .drop else none
  | _ => none

/-- The register of one hash; the first offer counts. -/
def settle (found : Option RawTx) : Change → Option RawTx
  | .offer tx => some (found.getD tx)
  | .drop => none

/-- A message acts on each hash by itself. -/
theorem specStep_eq_settle (pool : PoolMap) (msg : Msg) (hash : TxHash) :
    specStep pool msg hash = ((msg.change hash).map (settle (pool hash))).getD (pool hash) := by
  cases msg with
  | subscribe | networkEvent | add | take => rfl
  | remove hashes =>
      by_cases named : hash ∈ hashes
      · simp [specStep, Msg.change, named, settle]
      · simp [specStep, Msg.change, named]
  | checkTxResult tx result reply =>
      cases result with
      | error appError => rfl
      | ok outcome =>
          simp only [specStep, Msg.change]
          by_cases same : outcome.hash = hash
          · subst same
            cases found : pool outcome.hash with
            | none => cases valid : outcome.isValid <;> simp [settle, found]
            | some other => cases valid : outcome.isValid <;> simp [settle, found]
          · have silent : ¬ (outcome.isValid = true ∧ outcome.hash = hash) :=
              fun offers => same offers.2
            rw [if_neg silent]
            split
            · exact Function.update_of_ne (Ne.symm same) _ _
            · rfl

theorem foldl_specStep_eq_settle (msgs : List Msg) (pool : PoolMap) (hash : TxHash) :
    msgs.foldl specStep pool hash =
      (msgs.filterMap (Msg.change hash)).foldl settle (pool hash) := by
  induction msgs generalizing pool with
  | nil => rfl
  | cons msg rest ih =>
      rw [List.foldl_cons, ih, specStep_eq_settle]
      cases change : msg.change hash with
      | none => rw [List.filterMap_cons_none change]; rfl
      | some change' => rw [List.filterMap_cons_some change]; rfl

/-- Pools with the same content hold the same transactions. -/
theorem perm_of_content_eq {s s' : State} {queue queue' : List (TxHash × RawTx)}
    (rep : Represents s.txs s.txHashes queue) (rep' : Represents s'.txs s'.txHashes queue')
    (same : content s = content s') : s.txs.Perm s'.txs := by
  rw [rep.items_eq, rep'.items_eq]
  apply List.Perm.map
  apply (List.perm_ext_iff_of_nodup rep.nodup rep'.nodup).mpr
  rintro ⟨hash, tx⟩
  rw [← content_iff rep, ← content_iff rep', same]

/-- Two runs of the actor in which every hash meets the same offers and removals
    in the same order end with the same hashes and transactions, whatever the
    order of messages about different hashes, the capacities, the surroundings
    and the messages that change nothing. -/
theorem same_changes_same_pool (config config' : MempoolConfig) (labels labels' : List (Env × Msg))
    (alike : ∀ hash, (labels.map Prod.snd).filterMap (Msg.change hash) =
      (labels'.map Prod.snd).filterMap (Msg.change hash)) :
    ∃ h h', (actor config).run (History.init State.default) labels = some h ∧
      (actor config').run (History.init State.default) labels' = some h' ∧
      h.state.txs.Perm h'.state.txs ∧
      ∀ hash, content h.state hash = content h'.state hash ∧
        content h.state hash =
          ((labels.map Prod.snd).filterMap (Msg.change hash)).foldl settle none := by
  have initial := sound_init (s := State.default) rfl rfl
  obtain ⟨h, queue, ran, sound, folded⟩ := run_content config labels initial
  obtain ⟨h', queue', ran', sound', folded'⟩ := run_content config' labels' initial
  have fresh : ∀ hash, content (History.init State.default).state hash = none := fun _ => rfl
  have settled : ∀ hash, content h.state hash =
      ((labels.map Prod.snd).filterMap (Msg.change hash)).foldl settle none := by
    intro hash
    rw [folded, foldl_specStep_eq_settle, fresh]
  have same : content h.state = content h'.state := by
    funext hash
    rw [settled, alike, folded', foldl_specStep_eq_settle, fresh]
  refine ⟨h, h', ran, ran', perm_of_content_eq sound.represents sound'.represents same, ?_⟩
  intro hash
  exact ⟨congrFun same hash, settled hash⟩

/-- A valid result for the transaction that is its own hash. -/
def accepts (byte : UInt8) : Env × Msg :=
  (quiet, .checkTxResult ⟨[byte]⟩ (.ok { isValid := true, hash := ⟨[byte]⟩ }) none)

/-- Two results in either order, before one of the transactions is removed. -/
theorem swapped_results_same_pool : ∃ h h',
    (actor MempoolConfig.default).run (History.init State.default)
      [accepts 1, accepts 2, (quiet, .remove [⟨[1]⟩])] = some h ∧
    (actor MempoolConfig.default).run (History.init State.default)
      [accepts 2, (quiet, .take 0), accepts 1, (quiet, .remove [⟨[1]⟩])] = some h' ∧
    h.state.txs.Perm h'.state.txs := by
  have alike : ∀ hash,
      ([accepts 1, accepts 2, (quiet, .remove [⟨[1]⟩])].map Prod.snd).filterMap (Msg.change hash) =
        ([accepts 2, (quiet, .take 0), accepts 1, (quiet, .remove [⟨[1]⟩])].map
          Prod.snd).filterMap (Msg.change hash) := by
    intro hash
    by_cases first : hash = ⟨[1]⟩
    · subst first
      decide
    · have other : ¬ TxHash.mk [1] = hash := fun same => first same.symm
      simp [List.filterMap_cons, accepts, Msg.change, first, other]
  obtain ⟨h, h', ran, ran', same, _⟩ :=
    same_changes_same_pool MempoolConfig.default MempoolConfig.default _ _ alike
  exact ⟨h, h', ran, ran', same⟩

end MalachiteMempool
