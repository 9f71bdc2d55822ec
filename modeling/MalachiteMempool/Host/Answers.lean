import MalachiteMempool.Host.System

/-! # What the RPC client is told

As long as the event that carries the client's reply port reaches the app, each
call of `add_tx` that returns `Ok(())` has put its own `AddTxReply` into the
mailbox of the `Rpc` actor, and `get_state` then returns an outcome of that
transaction.  When the event is overwritten in the output port, or nobody is
subscribed to it, the task of the call ends with a `SenderError` that `add_tx`
does not look at.
-/

namespace MalachiteMempool

open Host

namespace Node

theorem holds_iff {n : Node} {reply : PortId} : n.holds reply = true ↔ n.InFlight reply := by
  rw [inFlight_iff, holds, Bool.or_eq_true, List.any_eq_true, decide_eq_true_eq,
    List.countP_pos_iff]

theorem lookup_replies_eq_none {n : Node} {reply : PortId} :
    n.replies.lookup reply = none ↔ ¬ n.Answered reply := by
  rw [List.lookup_eq_none_iff]
  constructor
  · rintro absent ⟨value, member⟩
    simpa using absent _ member
  · intro unanswered call member
    apply bne_iff_ne.mpr
    rintro rfl
    exact unanswered ⟨call.2, member⟩

end Node

namespace Host

def RpcMsg.answer : RpcMsg → Option (TestTx × TestCheckTxOutcome)
  | .addTxReply tx outcome => some (tx, outcome)
  | .getState _ => none

/-- All of these messages are `AddTxReply`. -/
def Answering (msgs : List RpcMsg) : Prop :=
  ∀ msg ∈ msgs, ∃ tx outcome, msg = .addTxReply tx outcome

theorem Answering.tail {msg : RpcMsg} {rest : List RpcMsg} (answering : Answering (msg :: rest)) :
    (∃ tx outcome, msg = .addTxReply tx outcome) ∧ Answering rest :=
  ⟨answering msg List.mem_cons_self,
    fun msg member => answering msg (List.mem_cons_of_mem _ member)⟩

theorem Answering.concat {msgs : List RpcMsg} (answering : Answering msgs) (tx : TestTx)
    (outcome : TestCheckTxOutcome) : Answering (msgs ++ [.addTxReply tx outcome]) := by
  intro msg member
  rcases List.mem_append.mp member with old | new
  · exact answering msg old
  · exact ⟨tx, outcome, List.mem_singleton.mp new⟩

@[simp] theorem Client.receive_none (client : Client) : client.receive none = client := by
  cases client <;> rfl

/-- The reply port of an unfinished `add_tx`. -/
def Client.awaits : Client → Option PortId
  | .adding _ reply => some reply
  | _ => none

theorem Client.awaits_eq_some {client : Client} {reply : PortId} :
    client.awaits = some reply ↔ ∃ tx, client = .adding tx reply := by
  cases client <;> simp [awaits]

/-- Forwarded for a call that has not returned yet. -/
def Client.due : Client → List TestTx
  | .added tx _ => [tx]
  | _ => []

namespace TestNode

/-- The `AddTxReply` messages in or through the mailbox of the `Rpc` actor. -/
def answers (t : TestNode) : List (TestTx × TestCheckTxOutcome) :=
  (t.handled ++ t.mailbox).filterMap RpcMsg.answer

/-- What `Ok(())` from `add_tx` promises. -/
structure Reported (config : MempoolConfig) (debug : Bytes → String) (t : TestNode) : Prop where
  /-- Each success has an `AddTxReply` of its own, in the order of the calls. -/
  replied : t.succeeded <+: t.answers.map Prod.fst
  /-- What `get_state` returned was about the last of them. -/
  told : ∀ last returned, (some last, returned) ∈ t.asked →
    ∃ outcome, returned = .ok (some outcome) ∧ outcome.hash = last.hash
  /-- A call of `get_state` now is answered so too. -/
  tells : t.client = .idle → ∀ last, t.succeeded.getLast? = some last → ∃ t' outcome,
    (system config debug).run t
      (.getState :: List.replicate (t.mailbox.length + 1) .rpc ++ [.getStateReturns]) = some t' ∧
    t'.asked = t.asked ++ [(some last, .ok (some outcome))] ∧ outcome.hash = last.hash

def Label.inner : Label → Option MalachiteMempool.Label
  | .node label => some label
  | _ => none

/-- While the client waits for `add_tx`, the step does not drop its reply port. -/
def Keeps (config : MempoolConfig) (t : TestNode) (label : Label) : Prop :=
  ∀ reply ∈ t.client.awaits, ∀ inner ∈ label.inner, t.node.KeepsReply config reply inner

instance (config : MempoolConfig) (t : TestNode) (label : Label) :
    Decidable (t.Keeps config label) :=
  inferInstanceAs (Decidable (∀ reply ∈ t.client.awaits, ∀ inner ∈ label.inner,
    t.node.KeepsReply config reply inner))

/-- What the mailbox of the `Rpc` actor may hold while the client waits. -/
def MailboxFits (t : TestNode) : Prop :=
  match t.client with
  | .asking reply => ∃ front, t.mailbox = front ++ [.getState reply] ∧ Answering front
  | .told outcome => t.mailbox = [] ∧ outcome = t.state
  | _ => Answering t.mailbox

structure Steady (config : MempoolConfig) (copies : Nat) (t : TestNode) : Prop where
  tracked : t.node.Tracked config copies
  state : t.state = (t.handled.filterMap RpcMsg.answer).getLast?.map Prod.snd
  honest : ∀ answer ∈ t.answers, answer.2.hash = answer.1.hash
  balanced : t.answers.map Prod.fst = t.succeeded ++ t.client.due
  fits : t.MailboxFits
  kept : ∀ tx reply, t.client = .adding tx reply → t.node.Kept reply
  told : ∀ last returned, (some last, returned) ∈ t.asked →
    ∃ outcome, returned = .ok (some outcome) ∧ outcome.hash = last.hash

theorem steady_start (config : MempoolConfig) (port : OutputPort) (copies : Nat) :
    (start port copies).Steady config copies where
  tracked := Node.tracked_start config port copies
  state := rfl
  honest := by simp [answers, start]
  balanced := rfl
  fits := by simp [MailboxFits, Answering, start]
  kept := by simp [start]
  told := by simp [start]

/-! ## What each step can do -/

variable {config : MempoolConfig} {debug : Bytes → String} {copies : Nat} {t t' : TestNode}

theorem node_cases {inner : MalachiteMempool.Label}
    (h : step config debug t (.node inner) = some t') :
    ∃ node, Node.step config t.node inner = some node ∧ t' = { t with node := node } := by
  obtain ⟨node, stepped, rfl⟩ := Option.map_eq_some_iff.mp h
  exact ⟨node, stepped, rfl⟩

theorem addTx_cases {tx : TestTx} (h : step config debug t (.addTx tx) = some t') :
    t.client = .idle ∧ ∃ node, Node.step config t.node (.add tx.serialize) = some node ∧
      t' = { t with node := node, client := .adding tx t.node.asked.length } := by
  simp only [step] at h
  split at h
  · rename_i idle
    obtain ⟨node, stepped, rfl⟩ := Option.map_eq_some_iff.mp h
    exact ⟨idle, node, stepped, rfl⟩
  · cases h

theorem resolve_cases (h : step config debug t .resolve = some t') :
    ∃ tx reply, t.client = .adding tx reply ∧
      ((∃ outcome, t' = { t with
          mailbox := t.mailbox ++ [Rpc.forwarded debug tx outcome]
          client := .added tx (.success (.ok ())) }) ∨
        (¬ t.node.Answered reply ∧ ¬ t.node.InFlight reply ∧
          t' = { t with client := .added tx .senderError })) := by
  simp only [step] at h
  split at h
  · rename_i tx reply waiting
    refine ⟨tx, reply, waiting, ?_⟩
    split at h
    · rename_i outcome _
      exact .inl ⟨outcome, (Option.some.inj h).symm⟩
    · rename_i unanswered
      split at h
      · cases h
      · rename_i dropped
        exact .inr ⟨Node.lookup_replies_eq_none.mp unanswered, mt Node.holds_iff.mpr dropped,
          (Option.some.inj h).symm⟩
  · cases h

theorem addTxReturns_cases (h : step config debug t .addTxReturns = some t') :
    ∃ tx call, t.client = .added tx call ∧
      t' = { t with client := .idle, added := t.added ++ [(tx, .ok ())] } := by
  simp only [step] at h
  split at h
  · rename_i tx call finished
    exact ⟨tx, call, finished, (Option.some.inj h).symm⟩
  · cases h

theorem getState_cases (h : step config debug t .getState = some t') :
    t.client = .idle ∧ t' = { t with
      mailbox := t.mailbox ++ [.getState t.asked.length]
      client := .asking t.asked.length } := by
  simp only [step] at h
  split at h
  · rename_i idle
    exact ⟨idle, (Option.some.inj h).symm⟩
  · cases h

theorem getStateReturns_cases (h : step config debug t .getStateReturns = some t') :
    ∃ outcome, t.client = .told outcome ∧ t' = { t with
      client := .idle, asked := t.asked ++ [(t.succeeded.getLast?, .ok outcome)] } := by
  simp only [step] at h
  split at h
  · rename_i outcome told
    exact ⟨outcome, told, (Option.some.inj h).symm⟩
  · cases h

theorem rpc_cases (h : step config debug t .rpc = some t') :
    ∃ msg rest, t.mailbox = msg :: rest ∧
      t' = { t with
        mailbox := rest
        state := (Rpc.handle (fun _ => .ok ()) msg t.state).state
        handled := t.handled ++ [msg]
        client := t.client.receive (Rpc.handle (fun _ => .ok ()) msg t.state).reply } := by
  simp only [step] at h
  split at h
  · cases h
  · rename_i msg rest waiting
    exact ⟨msg, rest, waiting, (Option.some.inj h).symm⟩

/-! ## One step keeps the client's account -/

@[simp] theorem answers_post (t : TestNode) (msg : RpcMsg) (client : Client) :
    ({ t with mailbox := t.mailbox ++ [msg], client := client } : TestNode).answers =
      t.answers ++ msg.answer.toList := by
  simp only [answers, ← List.append_assoc, List.filterMap_append]
  cases msg <;> rfl

/-- A handled message has been told before. -/
theorem answers_handled {msg : RpcMsg} {rest : List RpcMsg} (waiting : t.mailbox = msg :: rest)
    (state : Option TestCheckTxOutcome) (client : Client) :
    ({ t with
      mailbox := rest
      state := state
      handled := t.handled ++ [msg]
      client := client } : TestNode).answers = t.answers := by
  simp [answers, waiting]

/-- The `Rpc` actor's next message is a reply, or the client's question behind
    all of them. -/
theorem MailboxFits.head (fits : t.MailboxFits) {msg : RpcMsg} {rest : List RpcMsg}
    (waiting : t.mailbox = msg :: rest) :
    (∃ tx outcome, msg = .addTxReply tx outcome ∧ ∀ state handled,
      ({ t with mailbox := rest, state := state, handled := handled } : TestNode).MailboxFits) ∨
    ∃ reply, t.client = .asking reply ∧ msg = .getState reply ∧ rest = [] := by
  unfold MailboxFits at fits ⊢
  cases client : t.client with
  | idle | adding | added =>
      simp only [client, waiting] at fits
      obtain ⟨⟨tx, outcome, rfl⟩, others⟩ := Answering.tail fits
      exact .inl ⟨tx, outcome, rfl, fun _ _ => others⟩
  | told outcome =>
      simp only [client, waiting] at fits
      cases fits.1
  | asking reply =>
      simp only [client, waiting] at fits
      obtain ⟨front, split, answering⟩ := fits
      cases front with
      | nil =>
          obtain ⟨rfl, rfl⟩ := List.cons.inj split
          exact .inr ⟨reply, rfl, rfl, rfl⟩
      | cons first front =>
          obtain ⟨rfl, rfl⟩ := List.cons.inj split
          obtain ⟨⟨tx, outcome, rfl⟩, others⟩ := answering.tail
          exact .inl ⟨tx, outcome, rfl, fun _ _ => ⟨front, rfl, others⟩⟩

namespace Steady

theorem node_step (steady : t.Steady config copies) {inner : MalachiteMempool.Label}
    (keeps : t.Keeps config (.node inner)) (h : step config debug t (.node inner) = some t') :
    t'.Steady config copies := by
  obtain ⟨node, stepped, rfl⟩ := node_cases h
  have kept : ∀ tx reply, t.client = .adding tx reply → node.Kept reply := by
    intro tx reply waiting
    exact (steady.kept tx reply waiting).step steady.tracked.wired.settled
      (keeps reply (Client.awaits_eq_some.mpr ⟨tx, waiting⟩) inner rfl) stepped
  exact { steady with tracked := steady.tracked.step stepped, kept := kept }

theorem addTx_step (steady : t.Steady config copies) {tx : TestTx}
    (h : step config debug t (.addTx tx) = some t') : t'.Steady config copies := by
  obtain ⟨idle, node, stepped, rfl⟩ := addTx_cases h
  have fits := steady.fits
  have balanced := steady.balanced
  simp only [MailboxFits, idle] at fits
  rw [idle] at balanced
  refine { steady with
    tracked := steady.tracked.step stepped, balanced := balanced, fits := fits, kept := ?_ }
  intro tx' reply same
  obtain ⟨_, rfl⟩ := Client.adding.inj same
  exact Node.kept_add steady.tracked stepped

/-- The task of the call always has something to forward. -/
theorem resolve_step (steady : t.Steady config copies)
    (h : step config debug t .resolve = some t') :
    t'.Steady config copies := by
  obtain ⟨tx, reply, waiting, outcome⟩ := resolve_cases h
  have fits := steady.fits
  have balanced := steady.balanced
  simp only [MailboxFits, waiting] at fits
  simp only [waiting, Client.due, List.append_nil] at balanced
  rcases outcome with ⟨outcome, rfl⟩ | ⟨unanswered, absent, _⟩
  · obtain ⟨told, forwards, carries⟩ := Rpc.forwarded_eq debug tx outcome
    rw [forwards]
    have fits' := Answering.concat fits tx told
    refine { steady with honest := ?_, balanced := ?_, fits := fits', kept := ?_ }
    · intro answer member
      rw [answers_post] at member
      rcases List.mem_append.mp member with old | new
      · exact steady.honest answer old
      · obtain rfl : answer = (tx, told) := by simpa [RpcMsg.answer] using new
        exact carries
    · rw [answers_post, List.map_append, balanced]
      rfl
    · intro tx' reply' impossible
      cases impossible
  · -- a port that was kept has not been dropped
    rcases (steady.kept tx reply waiting).somewhere with inFlight | answered
    · exact absurd inFlight absent
    · exact absurd answered unanswered

theorem addTxReturns_step (steady : t.Steady config copies)
    (h : step config debug t .addTxReturns = some t') : t'.Steady config copies := by
  obtain ⟨tx, call, finished, rfl⟩ := addTxReturns_cases h
  have fits := steady.fits
  have balanced := steady.balanced
  simp only [MailboxFits, finished] at fits
  rw [finished] at balanced
  refine { steady with balanced := ?_, fits := fits, kept := ?_ }
  · simpa [succeeded, Client.due, answers] using balanced
  · intro tx' reply impossible
    cases impossible

theorem getState_step (steady : t.Steady config copies)
    (h : step config debug t .getState = some t') : t'.Steady config copies := by
  obtain ⟨idle, rfl⟩ := getState_cases h
  have fits := steady.fits
  have balanced := steady.balanced
  simp only [MailboxFits, idle] at fits
  rw [idle] at balanced
  refine { steady with honest := ?_, balanced := ?_, fits := ⟨_, rfl, fits⟩, kept := ?_ }
  · intro answer member
    rw [answers_post] at member
    exact steady.honest answer (by simpa [RpcMsg.answer] using member)
  · rw [answers_post, RpcMsg.answer, Option.toList_none, List.append_nil]
    exact balanced
  · intro tx reply impossible
    cases impossible

theorem rpc_step (steady : t.Steady config copies) (h : step config debug t .rpc = some t') :
    t'.Steady config copies := by
  obtain ⟨msg, rest, waiting, rfl⟩ := rpc_cases h
  have balanced := steady.balanced
  have honest := steady.honest
  have same := answers_handled waiting
  rcases steady.fits.head waiting with ⟨tx, outcome, rfl, fits⟩ | ⟨reply, asking, rfl, rfl⟩
  · rw [Rpc.handle, Client.receive_none]
    refine { steady with state := ?_, honest := ?_, balanced := ?_, fits := fits _ _ }
    · simp [RpcMsg.answer]
    · rw [same]
      exact honest
    · rw [same]
      exact balanced
  · have told : t.client.receive (some (reply, t.state)) = .told t.state := by
      rw [asking]
      exact if_pos rfl
    rw [asking] at balanced
    rw [Rpc.handle, told]
    refine { steady with state := ?_, honest := ?_, balanced := ?_, fits := ⟨rfl, rfl⟩, kept := ?_ }
    · rw [List.filterMap_append]
      simpa [RpcMsg.answer] using steady.state
    · rw [same]
      exact honest
    · rw [same]
      exact balanced
    · intro tx reply impossible
      cases impossible

/-- The last reply is about the last success, since none is on its way. -/
theorem getStateReturns_step (steady : t.Steady config copies)
    (h : step config debug t .getStateReturns = some t') : t'.Steady config copies := by
  obtain ⟨outcome, told, rfl⟩ := getStateReturns_cases h
  have fits := steady.fits
  have balanced := steady.balanced
  simp only [MailboxFits, told] at fits
  obtain ⟨empty, isState⟩ := fits
  simp only [told, Client.due, List.append_nil] at balanced
  have answered : t.answers = t.handled.filterMap RpcMsg.answer := by
    rw [answers, empty, List.append_nil]
  refine { steady with balanced := ?_, fits := ?_, kept := ?_, told := ?_ }
  · simpa [Client.due, answers, succeeded] using balanced
  · intro msg member
    rw [empty] at member
    cases member
  · intro tx reply impossible
    cases impossible
  · intro last returned member
    rcases List.mem_append.mp member with old | new
    · exact steady.told last returned old
    · obtain ⟨isLast, rfl⟩ := Prod.mk.inj (List.mem_singleton.mp new)
      rw [← balanced, List.getLast?_map] at isLast
      obtain ⟨answer, final, rfl⟩ := Option.map_eq_some_iff.mp isLast.symm
      refine ⟨answer.2, ?_, steady.honest answer (List.mem_of_getLast? final)⟩
      rw [isState, steady.state, ← answered, final]
      rfl

theorem step (steady : t.Steady config copies) {label : Label} (keeps : t.Keeps config label)
    (h : TestNode.step config debug t label = some t') : t'.Steady config copies := by
  cases label with
  | node inner => exact steady.node_step keeps h
  | addTx tx => exact steady.addTx_step h
  | resolve => exact steady.resolve_step h
  | addTxReturns => exact steady.addTxReturns_step h
  | getState => exact steady.getState_step h
  | rpc => exact steady.rpc_step h
  | getStateReturns => exact steady.getStateReturns_step h

end Steady

/-! ## Whole runs -/

/-- The `Rpc` actor gets to a question of the client, and the call returns. -/
theorem run_asking (config : MempoolConfig) (debug : Bytes → String) {t : TestNode}
    {reply : PortId} {front : List RpcMsg} (asking : t.client = .asking reply)
    (mailbox : t.mailbox = front ++ [.getState reply]) (answering : Answering front) :
    ∃ t' outcome, (system config debug).run t
        (List.replicate (front.length + 1) .rpc ++ [.getStateReturns]) = some t' ∧
      t'.asked = t.asked ++ [(t.succeeded.getLast?, .ok outcome)] := by
  induction front generalizing t with
  | nil =>
      let told : TestNode := { t with
        mailbox := [], handled := t.handled ++ [.getState reply], client := .told t.state }
      have handles : step config debug t .rpc = some told := by
        simp [step, mailbox, Rpc.handle, asking, Client.receive, told]
      let returned : TestNode := { told with
        client := .idle, asked := t.asked ++ [(t.succeeded.getLast?, .ok t.state)] }
      have returns : step config debug told .getStateReturns = some returned := rfl
      refine ⟨returned, t.state, ?_, rfl⟩
      refine (system config debug).run_cons_eq_some.mpr ⟨told, handles, ?_⟩
      exact (system config debug).run_cons_eq_some.mpr ⟨returned, returns, rfl⟩
  | cons msg rest ih =>
      obtain ⟨⟨tx, outcome, rfl⟩, others⟩ := answering.tail
      let next : TestNode := { t with
        mailbox := rest ++ [.getState reply]
        state := some outcome
        handled := t.handled ++ [.addTxReply tx outcome] }
      have handles : step config debug t .rpc = some next := by
        simp [step, mailbox, Rpc.handle, next]
      obtain ⟨t', told, ran, asked⟩ := ih (t := next) asking rfl others
      exact ⟨t', told, (system config debug).run_cons_eq_some.mpr ⟨next, handles, ran⟩, asked⟩

/-- The client and the `Rpc` actor by themselves drop nothing. -/
theorem Steady.run (steady : t.Steady config copies) {labels : List Label}
    (quiet : ∀ label ∈ labels, label.inner = none)
    (ran : (system config debug).run t labels = some t') : t'.Steady config copies := by
  have preserved : ∀ (s : TestNode) (label : Label) (next : TestNode),
      label.inner = none → s.Steady config copies →
        (system config debug).step s label = some next → next.Steady config copies := by
    intro s label next quiet steady h
    refine steady.step (fun reply _ inner same => ?_) h
    rw [quiet] at same
    cases same
  exact (system config debug).run_invariant preserved quiet steady ran

theorem Steady.reported (steady : t.Steady config copies) : t.Reported config debug where
  replied := ⟨t.client.due, steady.balanced.symm⟩
  told := steady.told
  tells := by
    intro idle last isLast
    have fits := steady.fits
    simp only [MailboxFits, idle] at fits
    let asking : TestNode := { t with
      mailbox := t.mailbox ++ [.getState t.asked.length], client := .asking t.asked.length }
    have calls : TestNode.step config debug t .getState = some asking := by
      simp only [TestNode.step, idle, asking]
    obtain ⟨t', outcome, returns, asked⟩ := run_asking config debug (t := asking) rfl rfl fits
    have ran : (system config debug).run t
        (.getState :: List.replicate (t.mailbox.length + 1) .rpc ++ [.getStateReturns]) = some t' :=
      (system config debug).run_cons_eq_some.mpr ⟨asking, calls, returns⟩
    have isLast' : asking.succeeded.getLast? = some last := isLast
    rw [isLast'] at asked
    have steady' : t'.Steady config copies := steady.run (by simp [Label.inner]) ran
    obtain ⟨told, same, carries⟩ := steady'.told last (.ok outcome) (by simp [asked])
    obtain rfl := Except.ok.inj same
    exact ⟨t', told, ran, asked, carries⟩

theorem always_steady {port : OutputPort} {labels : List Label}
    (kept : (system config debug).Throughout (Keeps config) (start port copies) labels) :
    (system config debug).Always (Steady config copies) (start port copies) labels :=
  (system config debug).always_of_throughout (fun _ _ _ steady keeps h => steady.step keeps h)
    (steady_start config port copies) kept

/-- In every run in which no step drops the reply port of the client's call,
    each `Ok(())` of `add_tx` has an `AddTxReply` of its own, and `get_state`
    returns an outcome of the last transaction reported as added. -/
theorem add_tx_reported (config : MempoolConfig) (debug : Bytes → String) (port : OutputPort)
    (subscribers : Nat) (labels : List Label)
    (kept : (system config debug).Throughout (Keeps config) (start port subscribers) labels) :
    (system config debug).Always (Reported config debug) (start port subscribers) labels := by
  exact (always_steady kept).imp _ (fun _ steady => steady.reported)

theorem node_or_same {label : Label} (h : step config debug t label = some t') :
    t'.node = t.node ∨ ∃ inner, Node.step config t.node inner = some t'.node := by
  cases label with
  | node inner =>
      obtain ⟨node, stepped, rfl⟩ := node_cases h
      exact .inr ⟨inner, stepped⟩
  | addTx tx =>
      obtain ⟨_, node, stepped, rfl⟩ := addTx_cases h
      exact .inr ⟨_, stepped⟩
  | resolve =>
      obtain ⟨_, _, _, ⟨_, rfl⟩ | ⟨_, _, rfl⟩⟩ := resolve_cases h <;> exact .inl rfl
  | addTxReturns =>
      obtain ⟨_, _, _, rfl⟩ := addTxReturns_cases h
      exact .inl rfl
  | getState =>
      obtain ⟨_, rfl⟩ := getState_cases h
      exact .inl rfl
  | rpc =>
      obtain ⟨_, _, _, rfl⟩ := rpc_cases h
      exact .inl rfl
  | getStateReturns =>
      obtain ⟨_, _, rfl⟩ := getStateReturns_cases h
      exact .inl rfl

theorem run_node_single {port : OutputPort} {labels : List Label}
    (ran : (system config debug).run (start port 1) labels = some t) : t.node.Single config := by
  have preserved : ∀ (s : TestNode) (label : Label) (next : TestNode), s.node.Single config →
      (system config debug).step s label = some next → next.node.Single config := by
    intro s label next single h
    rcases node_or_same h with same | ⟨inner, stepped⟩
    · rw [same]
      exact single
    · exact single.step stepped
  exact (system config debug).run_induction preserved (Node.single_start config port) ran

/-- The condition is exact for a node with its one app: once a step drops the
    client's reply port, the task ends, and `add_tx` reports a success for which
    there is no `AddTxReply`. -/
theorem unreported_of_dropped {port : OutputPort} {labels : List Label} {label : Label}
    (kept : (system config debug).Throughout (Keeps config) (start port 1) labels)
    (ran : (system config debug).run (start port 1) labels = some t)
    (drops : ¬ t.Keeps config label) (h : step config debug t label = some t') :
    ∃ final, (system config debug).run t' [.resolve, .addTxReturns] = some final ∧
      ¬ final.Reported config debug := by
  have steady : t.Steady config 1 := (always_steady kept).last _ ran
  have single := run_node_single ran
  simp only [Keeps, Option.mem_def, not_forall] at drops
  obtain ⟨reply, waiting, inner, isNode, drops⟩ := drops
  obtain ⟨tx, waiting⟩ := Client.awaits_eq_some.mp waiting
  obtain rfl : label = .node inner := by
    cases label <;> simp_all [Label.inner]
  obtain ⟨node, stepped, rfl⟩ := node_cases h
  have subscribed : t.node.port.receivers ≠ [] := by
    apply List.ne_nil_of_length_pos
    rw [single.wired.receivers]
    exact Nat.one_pos
  obtain ⟨check, member, mine⟩ :=
    Node.overwritten_of_not_keepsReply single.wired.settled subscribed stepped drops
  obtain ⟨absent, unanswered⟩ := (single.step stepped).gone member mine
  let failed : TestNode := { t with node := node, client := .added tx .senderError }
  have resolves : step config debug { t with node := node } .resolve = some failed := by
    have dropped : ¬ node.holds reply = true := mt Node.holds_iff.mp absent
    simp [step, waiting, Node.lookup_replies_eq_none.mpr unanswered, dropped, failed]
  let final : TestNode := { failed with client := .idle, added := t.added ++ [(tx, .ok ())] }
  refine ⟨final, (system config debug).run_cons_eq_some.mpr ⟨failed, resolves, ?_⟩, ?_⟩
  · exact (system config debug).run_cons_eq_some.mpr ⟨final, rfl, rfl⟩
  · intro reported
    have short := reported.replied.length_le
    have balanced := congrArg List.length steady.balanced
    have succeeded : final.succeeded = t.succeeded ++ [tx] := by
      simp [TestNode.succeeded, final]
    have answers : final.answers = t.answers := rfl
    rw [succeeded, answers] at short
    simp only [waiting, Client.due, List.append_nil] at balanced
    rw [List.length_append, List.length_singleton] at short
    omega

/-- A call whose own event reaches the app, and the question after it. -/
def answeredCall : List Label :=
  .addTx ⟨1⟩ :: ([.handle .calm, .forward 0, .app 0 checkTx, .handle .calm].map .node) ++
    [.resolve, .addTxReturns, .getState, .rpc, .rpc, .getStateReturns]

theorem answeredCall_reported :
    (∃ t, (system MempoolConfig.default (fun _ => "")).run (start OutputPort.default 1)
        answeredCall = some t ∧
      t.asked = [(some ⟨1⟩, .ok (some (.success ⟨1⟩)))]) ∧
    (system MempoolConfig.default (fun _ => "")).Always
      (Reported MempoolConfig.default (fun _ => "")) (start OutputPort.default 1) answeredCall :=
  ⟨⟨_, rfl, rfl⟩, add_tx_reported _ _ _ _ _ (by decide)⟩

/-- The client's second event is overwritten by sixteen of a peer's.  `add_tx`
    reports a success nobody has answered for, and `get_state` returns the
    outcome of the first transaction. -/
def overwrittenCall : List Label :=
  let stranger : List MalachiteMempool.Label :=
    [.gossip (.message .mempool ⟨[]⟩ ⟨[]⟩ (.transactionBatch (batchOf ⟨[1]⟩))), .handle .calm]
  .addTx ⟨1⟩ :: ([.handle .calm, .forward 0, .app 0 checkTx, .handle .calm].map .node) ++
    [.resolve, .addTxReturns, .addTx ⟨2⟩] ++
    ((.handle .calm :: (List.replicate 16 stranger).flatten).map .node) ++
    [.resolve, .addTxReturns, .getState, .rpc, .rpc, .getStateReturns]

theorem overwrittenCall_unreported :
    ∃ t, (system MempoolConfig.default (fun _ => "")).run (start OutputPort.default 1)
        overwrittenCall = some t ∧
      t.added = [(⟨1⟩, .ok ()), (⟨2⟩, .ok ())] ∧
      t.answers = [(⟨1⟩, .success ⟨1⟩)] ∧
      t.asked = [(some ⟨2⟩, .ok (some (.success ⟨1⟩)))] ∧
      ¬ t.Reported MempoolConfig.default (fun _ => "") := by
  have reached : ((system MempoolConfig.default (fun _ => "")).run (start OutputPort.default 1)
      overwrittenCall).map (fun t => (t.added, t.answers, t.asked)) =
        some ([(⟨1⟩, .ok ()), (⟨2⟩, .ok ())], [(⟨1⟩, .success ⟨1⟩)],
          [(some ⟨2⟩, .ok (some (.success ⟨1⟩)))]) := rfl
  obtain ⟨t, ran, seen⟩ := Option.map_eq_some_iff.mp reached
  simp only [Prod.mk.injEq] at seen
  obtain ⟨added, answers, asked⟩ := seen
  refine ⟨t, ran, added, answers, asked, ?_⟩
  intro reported
  obtain ⟨outcome, same, carries⟩ := reported.told ⟨2⟩ _ (asked ▸ List.mem_singleton_self _)
  obtain rfl := Option.some.inj (Except.ok.inj same)
  exact absurd carries (by decide)

end TestNode

end Host

end MalachiteMempool
