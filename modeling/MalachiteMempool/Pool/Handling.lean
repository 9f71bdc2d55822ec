import MalachiteMempool.Pool.Invariant

/-! # What one handled message does to the outside

The pool side of a handler is `handleMsg_represents`.  This is its other side:
the replies and broadcasts it makes and the events it publishes, said once for
all messages.
-/

namespace MalachiteMempool

/-- A transaction under check with the reply port that travels with it. -/
abbrev Check := RawTx × Option PortId

def Event.check : Event → Check
  | .checkTx tx reply => (tx, reply)

namespace Msg

/-- The check this message brings back. -/
def check : Msg → Option Check
  | .checkTxResult tx _ reply => some (tx, reply)
  | _ => none

/-- The check this message asks for. -/
def submission : Msg → Option Check
  | .add tx reply => some (tx, some reply)
  | .networkEvent (.message _ _ _ (.transactionBatch batch)) =>
      some (⟨batch.transactionBatch.value⟩, none)
  | _ => none

end Msg

/-- The answer a check result deserves in this state. -/
def verdict (s : State) (result : AppResult) : Except MempoolError CheckTxOutcome :=
  match result with
  | .ok outcome =>
      if outcome.isValid && s.has outcome.hash then .error (.txAlreadyExists outcome.hash)
      else .ok outcome
  | .error appError => .error (.invalidTransaction appError)

namespace Effect

def answered : Effect → Option (PortId × Except MempoolError CheckTxOutcome)
  | .reply port value => some (port, value)
  | _ => none

def batch : Effect → Option MempoolTransactionBatch
  | .broadcast batch => some batch
  | _ => none

end Effect

namespace Record

def replies (r : Record) : List (PortId × Except MempoolError CheckTxOutcome) :=
  r.effects.filterMap Effect.answered

def broadcasts (r : Record) : List MempoolTransactionBatch := r.effects.filterMap Effect.batch

end Record

/-- The replies made while handling a message: a full pool refuses an `Add` at
    once, a check result answers when nobody else holds its port. -/
def repliesTo (config : MempoolConfig) (strong : PortId → Nat) (msg : Msg) (s : State) :
    List (PortId × Except MempoolError CheckTxOutcome) :=
  match msg with
  | .add _ port =>
      if config.maxPoolSize ≤ s.txs.length then
        [(port, .error (.mempoolFull s.txs.length config.maxPoolSize))]
      else []
  | .checkTxResult _ result (some port) =>
      if strong port = 1 then [(port, verdict s result)] else []
  | _ => []

/-- The broadcasts made while handling a message. -/
def broadcastsOf (env : Env) (msg : Msg) (s : State) : List MempoolTransactionBatch :=
  match msg with
  | .checkTxResult tx _ (some _) =>
      if (newcomer msg s).isSome && env.networkUp then [batchOf tx] else []
  | _ => []

theorem mem_repliesTo {config : MempoolConfig} {strong : PortId → Nat} {msg : Msg} {s : State}
    {port : PortId} {value : Except MempoolError CheckTxOutcome} :
    (port, value) ∈ repliesTo config strong msg s ↔
      (∃ tx, msg = .add tx port ∧ config.maxPoolSize ≤ s.txs.length ∧
        value = .error (.mempoolFull s.txs.length config.maxPoolSize)) ∨
      ∃ tx result, msg = .checkTxResult tx result (some port) ∧ strong port = 1 ∧
        value = verdict s result := by
  cases msg with
  | subscribe | networkEvent | take | remove => simp [repliesTo]
  | add tx reply =>
      by_cases full : config.maxPoolSize ≤ s.txs.length
      · simp only [repliesTo, full, if_true, List.mem_singleton, Prod.mk.injEq, Msg.add.injEq,
          reduceCtorEq, false_and, exists_const]
        grind
      · simp [repliesTo, full]
  | checkTxResult tx result reply =>
      cases reply with
      | none => simp [repliesTo]
      | some reply =>
          by_cases alone : strong reply = 1
          · simp only [repliesTo, alone, if_true, List.mem_singleton, Prod.mk.injEq, reduceCtorEq,
              false_and, Msg.checkTxResult.injEq, Option.some.injEq]
            grind
          · simp only [repliesTo, alone, if_false, List.not_mem_nil, false_iff,
              Msg.checkTxResult.injEq, Option.some.injEq, reduceCtorEq]
            grind

theorem length_repliesTo_le (config : MempoolConfig) (strong : PortId → Nat) (msg : Msg)
    (s : State) : (repliesTo config strong msg s).length ≤ 1 := by
  cases msg with
  | subscribe | networkEvent | take | remove => simp [repliesTo]
  | add tx reply =>
      simp only [repliesTo]
      split <;> simp
  | checkTxResult tx result reply =>
      cases reply with
      | none => simp [repliesTo]
      | some port =>
          simp only [repliesTo]
          split <;> simp

theorem verdict_eq_invalid {s : State} {result : AppResult} {reason : String} :
    verdict s result = .error (.invalidTransaction reason) ↔ result = .error reason := by
  cases result with
  | error appError => simp [verdict]
  | ok outcome =>
      simp only [verdict]
      split <;> simp

theorem verdict_eq_exists {s : State} {result : AppResult} {hash : TxHash} :
    verdict s result = .error (.txAlreadyExists hash) ↔
      ∃ outcome, result = .ok outcome ∧ outcome.isValid = true ∧ outcome.hash = hash ∧
        hash ∈ s.txHashes := by
  cases result with
  | error appError => simp [verdict]
  | ok outcome =>
      simp only [verdict, State.has, Bool.and_eq_true, decide_eq_true_eq, Except.ok.injEq]
      split
      · rename_i present
        simp only [Except.error.injEq, MempoolError.txAlreadyExists.injEq]
        grind
      · rename_i absent
        simp only [reduceCtorEq, false_iff]
        grind

theorem verdict_eq_ok {s : State} {result : AppResult} {outcome : CheckTxOutcome} :
    verdict s result = .ok outcome ↔ result = .ok outcome ∧
      ¬ (outcome.isValid = true ∧ outcome.hash ∈ s.txHashes) := by
  cases result with
  | error appError => simp [verdict]
  | ok outcome' =>
      simp only [verdict, State.has, Bool.and_eq_true, decide_eq_true_eq, Except.ok.injEq]
      split
      · simp only [reduceCtorEq, false_iff]
        grind
      · grind

theorem verdict_ne_full {s : State} {result : AppResult} {size maxSize : Nat} :
    verdict s result ≠ .error (.mempoolFull size maxSize) := by
  cases result with
  | error appError => simp [verdict]
  | ok outcome =>
      simp only [verdict]
      split <;> simp

/-- A result inserts exactly when it deserves `Ok` with a valid outcome. -/
theorem newcomer_eq_some_iff {s : State} {tx : RawTx} {result : AppResult} {reply : Option PortId}
    {pair : TxHash × RawTx} :
    newcomer (.checkTxResult tx result reply) s = some pair ↔
      ∃ outcome, outcome.isValid = true ∧ verdict s result = .ok outcome ∧
        pair = (outcome.hash, tx) := by
  simp only [verdict_eq_ok]
  cases result with
  | error appError => simp [newcomer]
  | ok outcome =>
      simp only [newcomer, State.has, Bool.and_eq_true, Bool.not_eq_true', decide_eq_false_iff_not,
        Except.ok.injEq]
      split
      · simp only [Option.some.injEq]
        grind
      · simp only [reduceCtorEq, false_iff]
        grind

theorem outputPort_send (port : OutputPort) (event : Event) :
    port.send event = Broadcast.Channel.send port event := by
  cases receivers : port.receivers with
  | nil =>
      obtain ⟨capacity, rest⟩ := port
      obtain rfl : rest = [] := receivers
      rfl
  | cons r rest => simp [OutputPort.send, receivers]

theorem handleCheckTxResult_effects (env : Env) (tx : RawTx) (result : AppResult)
    (reply : Option PortId) (s : State) :
    let handled := handleCheckTxResult env tx result
      (reply.map (fun port => ⟨port, env.strong port⟩)) s
    handled.effects.filterMap Effect.answered =
        (match reply with
          | some port => if env.strong port = 1 then [(port, verdict s result)] else []
          | none => []) ∧
      handled.effects.filterMap Effect.batch =
        broadcastsOf env (.checkTxResult tx result reply) s ∧
      handled.state.outputPort = s.outputPort := by
  cases result with
  | error appError =>
      cases reply with
      | none => simp [handleCheckTxResult, answer, broadcastsOf]
      | some port =>
          by_cases alone : env.strong port = 1 <;>
            simp [handleCheckTxResult, answer, verdict, broadcastsOf, newcomer, Effect.answered,
              Effect.batch, alone]
  | ok outcome =>
      cases valid : outcome.isValid <;> cases present : s.has outcome.hash <;>
        cases reply with
        | none => simp [handleCheckTxResult, answer, broadcastsOf, valid, present]
        | some port =>
            by_cases alone : env.strong port = 1 <;> cases up : env.networkUp <;>
              simp [handleCheckTxResult, answer, gossipTx, verdict, broadcastsOf, newcomer,
                Effect.answered, Effect.batch, List.filterMap_cons, valid, present, alone, up]

/-- Everything a handled message shows to the outside. -/
theorem handleMsg_outside {config : MempoolConfig} {env : Env} {msg : Msg} {s : State}
    {handled : Handled} (ran : handleMsg config env msg s = some handled)
    (wired : msg ≠ .subscribe) :
    handled.effects.filterMap Effect.answered = repliesTo config env.strong msg s ∧
      handled.effects.filterMap Effect.batch = broadcastsOf env msg s ∧
      handled.state.outputPort =
        match msg.submission with
        | some check =>
            if config.maxPoolSize ≤ s.txs.length then s.outputPort
            else s.outputPort.send (.checkTx check.1 check.2)
        | none => s.outputPort := by
  cases msg with
  | subscribe => exact absurd rfl wired
  | take reply =>
      obtain rfl := Option.some.inj ran
      exact ⟨rfl, rfl, rfl⟩
  | remove hashes =>
      simp only [handleMsg, remove] at ran
      split at ran
      · cases ran
      · obtain ⟨rebuilt, _, rfl⟩ := Option.map_eq_some_iff.mp ran
        exact ⟨rfl, rfl, rfl⟩
  | add tx reply =>
      obtain rfl := Option.some.inj ran
      by_cases full : config.maxPoolSize ≤ s.txs.length <;>
        simp [addTx, answer, Arc.new, repliesTo, broadcastsOf, Msg.submission, Effect.answered,
          Effect.batch, full]
  | networkEvent event =>
      obtain rfl := Option.some.inj ran
      cases event with
      | message channel peer id msg =>
          cases msg with
          | transactionBatch batch =>
              by_cases full : config.maxPoolSize ≤ s.txs.length <;>
                simp [handleNetworkEvent, addTx, answer, repliesTo, broadcastsOf, Msg.submission,
                  full]
      | listening | peerConnected | peerDisconnected => exact ⟨rfl, rfl, rfl⟩
  | checkTxResult tx result reply =>
      obtain rfl := Option.some.inj ran
      obtain ⟨replies, batches, port⟩ := handleCheckTxResult_effects env tx result reply s
      refine ⟨?_, batches, port⟩
      rw [replies]
      cases reply <;> rfl

/-- The record was made by handling its message, which is not a subscription. -/
def Record.Faithful (config : MempoolConfig) (r : Record) : Prop :=
  r.msg ≠ .subscribe ∧ r.Produced config

namespace Record.Faithful

variable {config : MempoolConfig} {r : Record}

/-- Only the result of a local submission that put its transaction into the
    pool makes a broadcast, and it makes one. -/
theorem broadcast_cases (faithful : r.Faithful config) :
    r.broadcasts = [] ∨ ∃ tx result port, r.msg = .checkTxResult tx result (some port) ∧
      r.broadcasts = [batchOf tx] ∧ ∃ hash, r.inserted = some (hash, tx) := by
  have inserted := faithful.2.inserted_eq
  obtain ⟨wired, env, handled, took, _, effects⟩ := faithful
  obtain ⟨_, batches, _⟩ := handleMsg_outside took wired
  rw [effects] at batches
  rw [Record.broadcasts, batches, inserted]
  cases msg : r.msg with
  | subscribe | networkEvent | add | take | remove => exact .inl rfl
  | checkTxResult tx result reply =>
      cases reply with
      | none => exact .inl rfl
      | some port =>
          simp only [broadcastsOf]
          split
          · rename_i made
            obtain ⟨isNew, _⟩ := (Bool.and_eq_true _ _).mp made
            obtain ⟨⟨hash, other⟩, new⟩ := Option.isSome_iff_exists.mp isNew
            refine .inr ⟨tx, result, port, rfl, rfl, hash, ?_⟩
            rw [new]
            cases result with
            | error appError => cases new
            | ok outcome =>
                simp only [newcomer] at new
                split at new
                · cases new
                  rfl
                · cases new
          · exact .inl rfl

end Record.Faithful

end MalachiteMempool
