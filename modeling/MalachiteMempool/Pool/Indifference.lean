import MalachiteMempool.Pool.Fifo

/-! # The pool does not depend on replies

Handlers reply and gossip before, after and in between their updates, and
return early when a reply cannot be sent.  None of it shows in the pool: two
runs over the same messages, with the same iteration orders, have the same
pool after every step, whatever reply ports the messages carry, whoever else
holds them, whether their callers are still there and whether the network
actor takes the casts.
-/

namespace MalachiteMempool

/-- The message without its reply port. -/
def Msg.unaddressed : Msg → Msg
  | .add tx _ => .add tx 0
  | .checkTxResult tx result _ => .checkTxResult tx result none
  | .take _ => .take 0
  | msg => msg

/-- Labels that differ at most in reply ports, in what becomes of replies and in
    whether the network actor takes casts. -/
def Alike (label label' : Env × Msg) : Prop :=
  label.1.order = label'.1.order ∧ label.2.unaddressed = label'.2.unaddressed

def SamePool (s s' : State) : Prop := s.txs = s'.txs ∧ s.txHashes = s'.txHashes

/-- `remove` reads nothing but the pool and the iteration order. -/
theorem remove_samePool {env env' : Env} {s s' : State} (same : SamePool s s')
    (order : env.order = env'.order) {hashes : List TxHash} {handled : Handled}
    (ran : remove env hashes s = some handled) :
    ∃ handled', remove env' hashes s' = some handled' ∧ SamePool handled.state handled'.state := by
  obtain ⟨txs, txHashes⟩ := same
  simp only [remove, txs, txHashes, order] at ran ⊢
  split at ran
  · cases ran
  · rename_i enough
    obtain ⟨rebuilt, walked, rfl⟩ := Option.map_eq_some_iff.mp ran
    rw [if_neg enough, walked]
    exact ⟨_, rfl, rfl, rfl⟩

theorem handleCheckTxResult_samePool (env env' : Env) (tx : RawTx) (result : AppResult)
    (reply reply' : CheckTxReply) {s s' : State} (same : SamePool s s') :
    SamePool (handleCheckTxResult env tx result reply s).state
      (handleCheckTxResult env' tx result reply' s').state := by
  obtain ⟨txs, txHashes⟩ := same
  have present : ∀ hash, s.has hash = s'.has hash := by
    intro hash
    simp [State.has, txHashes]
  cases result with
  | error appError => simpa [handleCheckTxResult, SamePool] using ⟨txs, txHashes⟩
  | ok outcome =>
      simp only [handleCheckTxResult, present]
      split
      · split
        · simpa [SamePool] using ⟨txs, txHashes⟩
        · simp [SamePool, txs, txHashes]
      · simpa [SamePool] using ⟨txs, txHashes⟩

/-- One step keeps two pools equal. -/
theorem handleMsg_samePool {config : MempoolConfig} {label label' : Env × Msg} {s s' : State}
    (same : SamePool s s') (alike : Alike label label') {handled : Handled}
    (ran : handleMsg config label.1 label.2 s = some handled) :
    ∃ handled', handleMsg config label'.1 label'.2 s' = some handled' ∧
      SamePool handled.state handled'.state := by
  obtain ⟨env, msg⟩ := label
  obtain ⟨env', msg'⟩ := label'
  obtain ⟨order, messages⟩ := alike
  simp only at order messages ran ⊢
  cases msg with
  | remove hashes =>
      cases msg' <;> cases messages
      exact remove_samePool same order ran
  | subscribe =>
      cases msg' <;> cases messages
      obtain rfl := Option.some.inj ran
      exact ⟨_, rfl, same⟩
  | take reply =>
      cases msg' <;> cases messages
      obtain rfl := Option.some.inj ran
      exact ⟨_, rfl, same⟩
  | networkEvent event =>
      cases msg' <;> cases messages
      obtain rfl := Option.some.inj ran
      obtain ⟨txs, txHashes⟩ := handleNetworkEvent_pool config env event s
      obtain ⟨txs', txHashes'⟩ := handleNetworkEvent_pool config env' event s'
      exact ⟨_, rfl, by rw [txs, txs', same.1], by rw [txHashes, txHashes', same.2]⟩
  | add tx reply =>
      cases msg' with
      | add tx' reply' =>
          obtain ⟨rfl, _⟩ := Msg.add.inj messages
          obtain rfl := Option.some.inj ran
          obtain ⟨txs, txHashes⟩ := addTx_pool config env tx (some (Arc.new reply)) s
          obtain ⟨txs', txHashes'⟩ := addTx_pool config env' tx (some (Arc.new reply')) s'
          exact ⟨_, rfl, by rw [txs, txs', same.1], by rw [txHashes, txHashes', same.2]⟩
      | subscribe | networkEvent | checkTxResult | take | remove => cases messages
  | checkTxResult tx result reply =>
      cases msg' with
      | checkTxResult tx' result' reply' =>
          obtain ⟨rfl, rfl, _⟩ := Msg.checkTxResult.inj messages
          obtain rfl := Option.some.inj ran
          exact ⟨_, rfl, handleCheckTxResult_samePool env env' tx result _ _ same⟩
      | subscribe | networkEvent | add | take | remove => cases messages

/-- Two histories with the same pool now and after every step so far. -/
def SamePools (h h' : History) : Prop :=
  SamePool h.state h'.state ∧ List.Forall₂ (fun r r' => SamePool r.after r'.after) h.log h'.log

theorem samePools_step {config : MempoolConfig} {h h' next : History} {label label' : Env × Msg}
    (same : SamePools h h') (alike : Alike label label')
    (ran : (actor config).step h label = some next) :
    ∃ next', (actor config).step h' label' = some next' ∧ SamePools next next' := by
  obtain ⟨handled, took, rfl⟩ := Option.map_eq_some_iff.mp ran
  obtain ⟨handled', took', pools⟩ := handleMsg_samePool same.1 alike took
  exact ⟨_, Option.map_eq_some_iff.mpr ⟨handled', took', rfl⟩, pools,
    List.rel_append same.2 (.cons pools .nil)⟩

/-! ## Replies that cannot be sent -/

/-- The same surroundings, with all callers still there. -/
def Env.listening (env : Env) : Env := { env with closed := fun _ => false }

def Handled.delivered (handled : Handled) : Handled := { handled with result := .ok () }

theorem answer_listening (env : Env) (reply : CheckTxReply)
    (value : Except MempoolError CheckTxOutcome) (s : State) (before : List Effect) :
    answer env.listening reply value s before = (answer env reply value s before).delivered := by
  cases reply with
  | none => rfl
  | some arc =>
      simp only [answer]
      split <;> rfl

theorem addTx_listening (config : MempoolConfig) (env : Env) (tx : RawTx) (reply : CheckTxReply)
    (s : State) :
    addTx config env.listening tx reply s = (addTx config env tx reply s).delivered := by
  simp only [addTx]
  split
  · exact answer_listening env reply _ s []
  · rfl

/-- A failed reply changes what the handler returns, and nothing it leaves. -/
theorem handleMsg_listening (config : MempoolConfig) (env : Env) (msg : Msg) (s : State) :
    handleMsg config env.listening msg s = (handleMsg config env msg s).map Handled.delivered := by
  cases msg with
  | subscribe | take => rfl
  | add tx reply => exact congrArg some (addTx_listening config env tx _ s)
  | networkEvent event =>
      cases event with
      | message channel peer id msg =>
          cases msg with
          | transactionBatch batch => exact congrArg some (addTx_listening config env _ none s)
      | listening | peerConnected | peerDisconnected => rfl
  | remove hashes =>
      simp only [handleMsg, remove]
      split
      · rfl
      · rw [Option.map_map]
        rfl
  | checkTxResult tx result reply =>
      refine congrArg some ?_
      cases result with
      | error appError => exact answer_listening env _ _ s []
      | ok outcome =>
          simp only [handleCheckTxResult]
          split
          · split
            · exact answer_listening env _ _ s []
            · exact answer_listening env _ _ _ _
          · exact answer_listening env _ _ s []

/-- Two runs over the same messages and iteration orders have the same pool
    after every step, whatever becomes of replies and casts; and a handler that
    returns an error leaves what it would have left had its reply been sent. -/
theorem pool_ignores_replies (config : MempoolConfig) (labels labels' : List (Env × Msg))
    (alike : List.Forall₂ Alike labels labels') :
    (∃ h h', (actor config).run (History.init State.default) labels = some h ∧
      (actor config).run (History.init State.default) labels' = some h' ∧
      SamePool h.state h'.state ∧
      List.Forall₂ (fun r r' => SamePool r.after r'.after) h.log h'.log) ∧
    ∀ env msg s handled e, handleMsg config env msg s = some handled → handled.result = .error e →
      ∃ delivered, handleMsg config { env with closed := fun _ => false } msg s = some delivered ∧
        delivered.result = .ok () ∧ delivered.state = handled.state := by
  constructor
  · obtain ⟨h, _, ran, _⟩ := run_sound config labels (sound_init (s := State.default) rfl rfl)
    have initial : SamePools (History.init State.default) (History.init State.default) :=
      ⟨⟨rfl, rfl⟩, .nil⟩
    obtain ⟨h', ran', same, after⟩ := (actor config).run_related
      (fun _ _ _ _ _ same alike taken => samePools_step same alike taken) initial alike ran
    exact ⟨h, h', ran, ran', same, after⟩
  · intro env msg s handled e took _
    refine ⟨handled.delivered, ?_, rfl, rfl⟩
    exact (handleMsg_listening config env msg s).trans (by rw [took]; rfl)

/-- A caller that is gone, holds a shared port or was never there: the pool is
    the same. -/
theorem closed_and_absent_replies_agree :
    ∃ h h', (actor MempoolConfig.default).run (History.init State.default)
        [({ quiet with closed := fun _ => true, networkUp := false },
          .checkTxResult ⟨[1]⟩ (.ok ⟨true, ⟨[1]⟩⟩) (some 0))] = some h ∧
      (actor MempoolConfig.default).run (History.init State.default)
        [(quiet, .checkTxResult ⟨[1]⟩ (.ok ⟨true, ⟨[1]⟩⟩) none)] = some h' ∧
      SamePool h.state h'.state := by
  obtain ⟨⟨h, h', ran, ran', same, _⟩, _⟩ := pool_ignores_replies MempoolConfig.default
    [({ quiet with closed := fun _ => true, networkUp := false },
      .checkTxResult ⟨[1]⟩ (.ok ⟨true, ⟨[1]⟩⟩) (some 0))]
    [(quiet, .checkTxResult ⟨[1]⟩ (.ok ⟨true, ⟨[1]⟩⟩) none)] (.cons ⟨rfl, rfl⟩ .nil)
  exact ⟨h, h', ran, ran', same⟩

end MalachiteMempool
