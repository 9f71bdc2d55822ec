import MalachiteMempool.Mempool
import Mathlib.Data.Finset.Option

/-! # What the pool holds

The queue `txs` and the index `tx_hashes` are updated separately.  Together
they hold one list of hash/transaction pairs (`IndexedQueue.Represents`), and
every handler acts on that list: a newcomer is appended, `remove` leaves a
rearrangement of the survivors, everything else keeps it.  `remove` never
panics on such a state.
-/

namespace MalachiteMempool

open IndexedQueue

/-- The pair that handling this message in this state puts into the pool. -/
def newcomer (msg : Msg) (s : State) : Option (TxHash × RawTx) :=
  match msg with
  | .checkTxResult tx (.ok outcome) _ =>
      if outcome.isValid && !s.has outcome.hash then some (outcome.hash, tx) else none
  | _ => none

/-- The entries of the index that a removal leaves, in the order in which the
    hash map hands them out. -/
def keptEntries (order : IterOrder TxHash) (hashes : List TxHash) (s : State) :
    List (Entry TxHash) :=
  order.arrange (s.txHashes.entries.filter (fun e => decide (e.1 ∉ hashes)))

def survivors (order : IterOrder TxHash) (hashes : List TxHash) (s : State) :
    List (TxHash × RawTx) :=
  (keptEntries order hashes s).filterMap (resolve s.txs)

def nextQueue (order : IterOrder TxHash) (msg : Msg) (s : State) (queue : List (TxHash × RawTx)) :
    List (TxHash × RawTx) :=
  match msg with
  | .remove hashes => survivors order hashes s
  | msg => queue ++ (newcomer msg s).toList

/-! ## The two loops of `remove` -/

theorem forget_eq (acc : Index TxHash × Finset Nat) (txHash : TxHash) :
    forget acc txHash = (acc.1.erase txHash, acc.2 ∪ (acc.1.lookup txHash).toFinset) := by
  cases found : acc.1.lookup txHash with
  | none =>
      have absent : txHash ∉ acc.1 := AList.lookup_eq_none.mp found
      have unchanged : acc.1.erase txHash = acc.1 :=
        AList.ext (List.kerase_of_notMem_keys absent)
      simp [forget, found, unchanged]
  | some index =>
      simp only [forget, found, Option.toFinset_some, Finset.union_comm acc.2]
      rfl

theorem foldl_forget (hashes : List TxHash) (index : Index TxHash) (ignore : Finset Nat) :
    (hashes.foldl forget (index, ignore)).1.entries =
        index.entries.filter (fun e => decide (e.1 ∉ hashes)) ∧
      ∀ i, i ∈ (hashes.foldl forget (index, ignore)).2 ↔
        i ∈ ignore ∨ ∃ hash ∈ hashes, index.lookup hash = some i := by
  induction hashes generalizing index ignore with
  | nil => simp
  | cons hash rest ih =>
      obtain ⟨entries, ignored⟩ := ih (index.erase hash) (ignore ∪ (index.lookup hash).toFinset)
      rw [List.foldl_cons, forget_eq]
      refine ⟨?_, fun i => ?_⟩
      · rw [entries, entries_erase, List.filter_filter]
        congr 1
        funext e
        simp [Bool.and_comm]
      · rw [ignored, Finset.mem_union, Option.mem_toFinset, Option.mem_def]
        -- a hash that occurs again in the list has nothing left to contribute
        have erased : (∃ other ∈ rest, (index.erase hash).lookup other = some i) ↔
            ∃ other ∈ rest, other ≠ hash ∧ index.lookup other = some i := by
          refine exists_congr fun other => and_congr_right fun _ => ?_
          by_cases same : other = hash
          · subst same
            simp
          · simp [AList.lookup_erase_ne same, same]
        rw [erased]
        simp only [List.mem_cons]
        grind

theorem rebuild_loop {txs : List RawTx} {ignore : Finset Nat} {entries : List (Entry TxHash)}
    (wanted : ∀ e ∈ entries, e.2 ∉ ignore) (inRange : ∀ e ∈ entries, e.2 < txs.length)
    (distinct : (entries.map Sigma.fst).Nodup) {acc : Rebuilt} {done : List (TxHash × RawTx)}
    (rep : Represents acc.newTxs acc.newHashes done) (counted : acc.counter = acc.newTxs.length)
    (fresh : ∀ e ∈ entries, e.1 ∉ done.map Prod.fst) :
    ∃ rebuilt, entries.foldlM (rebuild txs ignore) acc = some rebuilt ∧
      Represents rebuilt.newTxs rebuilt.newHashes (done ++ entries.filterMap (resolve txs)) := by
  induction entries generalizing acc done with
  | nil => exact ⟨acc, rfl, by simpa using rep⟩
  | cons entry rest ih =>
      obtain ⟨absent, restDistinct⟩ := List.nodup_cons.mp distinct
      obtain ⟨tx, found⟩ : ∃ tx, txs[entry.2]? = some tx :=
        ⟨_, List.getElem?_eq_getElem (inRange entry (by simp))⟩
      have resolved : resolve txs entry = some (entry.1, tx) := by simp [resolve, found]
      let next : Rebuilt :=
        { newTxs := acc.newTxs ++ [tx]
          newHashes := acc.newHashes.insert entry.1 acc.counter
          counter := acc.counter + 1 }
      have step : rebuild txs ignore acc entry = some next := by
        simp [rebuild, wanted entry (by simp), found, next]
      have pushed : Represents next.newTxs next.newHashes (done ++ [(entry.1, tx)]) := by
        simp only [next, counted]
        exact rep.push (fun member => fresh entry (by simp) (rep.mem_iff.mp member)) tx
      have stillFresh : ∀ e ∈ rest, e.1 ∉ (done ++ [(entry.1, tx)]).map Prod.fst := by
        intro e member
        simp only [List.map_append, List.map_cons, List.map_nil, List.mem_append,
          List.mem_singleton, not_or]
        refine ⟨fresh e (List.mem_cons_of_mem _ member), fun same => absent ?_⟩
        exact List.mem_map.mpr ⟨e, member, same⟩
      obtain ⟨rebuilt, ran, represented⟩ := ih
        (fun e member => wanted e (List.mem_cons_of_mem _ member))
        (fun e member => inRange e (List.mem_cons_of_mem _ member)) restDistinct pushed
        (by simp [next, counted]) stillFresh
      refine ⟨rebuilt, ?_, by simpa [resolved] using represented⟩
      rw [List.foldlM_cons, step]
      exact ran

theorem keptEntries_perm {s : State} {queue : List (TxHash × RawTx)}
    (rep : Represents s.txs s.txHashes queue) (order : IterOrder TxHash) (hashes : List TxHash) :
    (keptEntries order hashes s).Perm
      ((entriesOf queue).filter (fun e => decide (e.1 ∉ hashes))) :=
  (order.perm _).trans (rep.entries_perm.filter _)

/-- What `remove` keeps is indexed and not named. -/
theorem lookup_of_keptEntries {s : State} {queue : List (TxHash × RawTx)}
    (rep : Represents s.txs s.txHashes queue) {order : IterOrder TxHash} {hashes : List TxHash}
    {e : Entry TxHash} (inside : e ∈ keptEntries order hashes s) :
    s.txHashes.lookup e.1 = some e.2 ∧ e.1 ∉ hashes := by
  have permuted := keptEntries_perm rep order hashes
  obtain ⟨inQueue, notNamed⟩ := List.mem_filter.mp (permuted.mem_iff.mp inside)
  exact ⟨(rep.lookup_iff _ _).mpr (mem_entriesOf.mp inQueue), by simpa using notNamed⟩

theorem keptEntries_nodup {s : State} {queue : List (TxHash × RawTx)}
    (rep : Represents s.txs s.txHashes queue) (order : IterOrder TxHash) (hashes : List TxHash) :
    ((keptEntries order hashes s).map Sigma.fst).Nodup := by
  have sub : (((entriesOf queue).filter (fun e => decide (e.1 ∉ hashes))).map
      Sigma.fst).Sublist (queue.map Prod.fst) := by
    rw [← entriesOf_keys]
    exact List.filter_sublist.map _
  refine (((keptEntries_perm rep order hashes).map Sigma.fst).nodup_iff).mpr ?_
  exact rep.keys_nodup.sublist sub

/-- Whatever the iteration order, the survivors are the pairs whose hash is
    not named. -/
theorem survivors_perm {s : State} {queue : List (TxHash × RawTx)}
    (rep : Represents s.txs s.txHashes queue) (order : IterOrder TxHash) (hashes : List TxHash) :
    (survivors order hashes s).Perm (queue.filter (fun pair => decide (pair.1 ∉ hashes))) := by
  have permuted := (keptEntries_perm rep order hashes).filterMap (resolve s.txs)
  rwa [rep.items_eq, filterMap_resolve_entriesOf queue (fun hash => decide (hash ∉ hashes)),
    ← rep.items_eq] at permuted

/-- The entries over which the second loop runs. -/
theorem arrange_forgotten (order : IterOrder TxHash) (hashes : List TxHash) (s : State) :
    order.arrange (hashes.foldl forget (s.txHashes, ∅)).1.entries = keptEntries order hashes s := by
  rw [(foldl_forget hashes s.txHashes ∅).1, keptEntries]

theorem mem_ignored {hashes : List TxHash} {index : Index TxHash} {i : Nat} :
    i ∈ (hashes.foldl forget (index, ∅)).2 ↔ ∃ hash ∈ hashes, index.lookup hash = some i := by
  simpa using (foldl_forget hashes index ∅).2 i

/-- The ignored positions are distinct and in range, so that the capacities do
    not underflow. -/
theorem ignored_card_le {s : State} {queue : List (TxHash × RawTx)}
    (rep : Represents s.txs s.txHashes queue) (hashes : List TxHash) :
    (hashes.foldl forget (s.txHashes, ∅)).2.card ≤ s.txs.length := by
  have below : (hashes.foldl forget (s.txHashes, ∅)).2 ⊆ Finset.range s.txs.length := by
    intro i inside
    obtain ⟨hash, _, found⟩ := mem_ignored.mp inside
    exact Finset.mem_range.mpr (rep.lookup_lt found)
  simpa using Finset.card_le_card below

/-- No position is ignored for one hash and kept for another. -/
theorem kept_not_ignored {s : State} {queue : List (TxHash × RawTx)}
    (rep : Represents s.txs s.txHashes queue) {order : IterOrder TxHash} {hashes : List TxHash}
    {e : Entry TxHash} (inside : e ∈ keptEntries order hashes s) :
    e.2 ∉ (hashes.foldl forget (s.txHashes, ∅)).2 := by
  intro ignored
  obtain ⟨hash, named, found⟩ := mem_ignored.mp ignored
  obtain ⟨found', notNamed⟩ := lookup_of_keptEntries rep inside
  exact notNamed (rep.lookup_injective found found' ▸ named)

/-- `remove` does not panic, and leaves the survivors. -/
theorem remove_represents {s : State} {queue : List (TxHash × RawTx)}
    (rep : Represents s.txs s.txHashes queue) (env : Env) (hashes : List TxHash) :
    ∃ next, remove env hashes s = some ⟨next, [], .ok ()⟩ ∧ next.outputPort = s.outputPort ∧
      Represents next.txs next.txHashes (survivors env.order hashes s) := by
  have empty : Represents (Rebuilt.newTxs {}) (Rebuilt.newHashes {}) [] := represents_nil
  obtain ⟨rebuilt, ran, represented⟩ := rebuild_loop
    (fun e inside => kept_not_ignored rep inside)
    (fun e inside => rep.lookup_lt (lookup_of_keptEntries rep inside).1)
    (keptEntries_nodup rep env.order hashes) empty rfl (by simp)
  refine ⟨{ s with txs := rebuilt.newTxs, txHashes := rebuilt.newHashes }, ?_, rfl, ?_⟩
  · simp only [remove, if_neg (Nat.not_lt.mpr (ignored_card_le rep hashes)), arrange_forgotten]
    rw [ran]
    rfl
  · simpa [survivors] using represented

/-! ## One handled message -/

@[simp] theorem answer_state (env : Env) (reply : CheckTxReply)
    (value : Except MempoolError CheckTxOutcome) (s : State) (before : List Effect) :
    (answer env reply value s before).state = s := by
  cases reply with
  | none => rfl
  | some arc =>
      simp only [answer]
      split <;> rfl

theorem addTx_pool (config : MempoolConfig) (env : Env) (tx : RawTx) (reply : CheckTxReply)
    (s : State) :
    (addTx config env tx reply s).state.txs = s.txs ∧
      (addTx config env tx reply s).state.txHashes = s.txHashes := by
  simp only [addTx]
  split <;> simp

theorem handleNetworkEvent_pool (config : MempoolConfig) (env : Env) (event : Network.Event)
    (s : State) :
    (handleNetworkEvent config env event s).state.txs = s.txs ∧
      (handleNetworkEvent config env event s).state.txHashes = s.txHashes := by
  cases event with
  | message channel peer id msg =>
      cases msg with
      | transactionBatch batch => exact addTx_pool config env _ none s
  | listening | peerConnected | peerDisconnected => exact ⟨rfl, rfl⟩

theorem handleCheckTxResult_pool (env : Env) (tx : RawTx) (result : AppResult)
    (reply : CheckTxReply) (port : Option PortId) (s : State) :
    let after := (handleCheckTxResult env tx result reply s).state
    match newcomer (.checkTxResult tx result port) s with
    | some (hash, inserted) =>
        after.txs = s.txs ++ [inserted] ∧ after.txHashes = s.txHashes.insert hash s.txs.length
    | none => after.txs = s.txs ∧ after.txHashes = s.txHashes := by
  cases result with
  | error appError => simp [handleCheckTxResult, newcomer]
  | ok outcome =>
      cases valid : outcome.isValid with
      | false => simp [handleCheckTxResult, newcomer, valid]
      | true =>
          cases present : s.has outcome.hash with
          | true => simp [handleCheckTxResult, newcomer, valid, present]
          | false => simp [handleCheckTxResult, newcomer, valid, present]

theorem newcomer_absent {msg : Msg} {s : State} {hash : TxHash} {tx : RawTx}
    (new : newcomer msg s = some (hash, tx)) : hash ∉ s.txHashes := by
  cases msg with
  | checkTxResult raw result reply =>
      cases result with
      | error appError => simp [newcomer] at new
      | ok outcome =>
          simp only [newcomer] at new
          split at new
          · rename_i inserts
            obtain ⟨rfl, rfl⟩ := Prod.mk.inj (Option.some.inj new)
            simp only [State.has, Bool.and_eq_true, Bool.not_eq_true', decide_eq_false_iff_not]
              at inserts
            exact inserts.2
          · cases new
  | subscribe | networkEvent | add | take | remove => simp [newcomer] at new

/-- The one fact about handlers that the pool's invariants rest on: no message
    makes the actor panic, and each acts on the represented list. -/
theorem handleMsg_represents {s : State} {queue : List (TxHash × RawTx)}
    (rep : Represents s.txs s.txHashes queue) (config : MempoolConfig) (env : Env) (msg : Msg) :
    ∃ handled, handleMsg config env msg s = some handled ∧
      Represents handled.state.txs handled.state.txHashes (nextQueue env.order msg s queue) := by
  cases msg with
  | subscribe => exact ⟨_, rfl, by simpa [nextQueue, newcomer] using rep⟩
  | networkEvent event =>
      obtain ⟨txs, txHashes⟩ := handleNetworkEvent_pool config env event s
      exact ⟨_, rfl, by simpa [nextQueue, newcomer, txs, txHashes] using rep⟩
  | add tx reply =>
      obtain ⟨txs, txHashes⟩ := addTx_pool config env tx (some (Arc.new reply)) s
      exact ⟨_, rfl, by simpa [nextQueue, newcomer, txs, txHashes] using rep⟩
  | take reply => exact ⟨_, rfl, by simpa [nextQueue, newcomer, take] using rep⟩
  | remove hashes =>
      obtain ⟨next, removed, _, represented⟩ := remove_represents rep env hashes
      exact ⟨_, removed, represented⟩
  | checkTxResult tx result reply =>
      refine ⟨_, rfl, ?_⟩
      have pool := handleCheckTxResult_pool env tx result
        (reply.map (fun port => ⟨port, env.strong port⟩)) reply s
      cases new : newcomer (.checkTxResult tx result reply) s with
      | none =>
          simp only [new] at pool
          simpa [nextQueue, new, pool.1, pool.2] using rep
      | some pair =>
          obtain ⟨hash, inserted⟩ := pair
          simp only [new] at pool
          simpa [nextQueue, new, pool.1, pool.2] using rep.push (newcomer_absent new) inserted

end MalachiteMempool
