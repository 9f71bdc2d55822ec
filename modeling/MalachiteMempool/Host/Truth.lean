import MalachiteMempool.Host.Answers
import MalachiteMempool.Node.Content
import MalachiteMempool.Node.Replies

/-! # What the RPC endpoint says is true

A host node has one app, which checks as `TestMempoolApp` does.  Whatever the
interleaving and the output port, an outcome that reaches the `Rpc` actor says
what became of its transaction in the call it answers: a success that the pool
took it in, an error why it did not.  An event that is lost can keep an answer
away and leave an older one for `get_state`, but it never makes a wrong one.
-/

namespace MalachiteMempool

open Host IndexedQueue

namespace Node

variable {config : MempoolConfig} {copies : Nat} {n n' : Node} {label : Label}

/-- A reply is a refusal or the verdict on a check result, for the transaction
    that its port was issued for. -/
theorem Tracked.reply_source (tracked : n.Tracked config copies) {port : PortId} {tx : RawTx}
    (asked : n.asked[port]? = some tx) {value : Except MempoolError CheckTxOutcome}
    (replied : (port, value) ∈ n.replies) :
    ∃ r ∈ n.pool.log, (port, value) ∈ r.replies ∧
      ((r.msg = .add tx port ∧ config.maxPoolSize ≤ r.before.txs.length ∧
          value = .error (.mempoolFull r.before.txs.length config.maxPoolSize)) ∨
        ∃ result, r.msg = .checkTxResult tx result (some port) ∧
          value = verdict r.before result) := by
  obtain ⟨r, member, inside⟩ := mem_replies.mp replied
  refine ⟨r, member, inside, ?_⟩
  obtain ⟨wired, env, handled, took, _, effects⟩ := tracked.faithful r member
  obtain ⟨replies, _, _⟩ := handleMsg_outside took wired
  rw [Record.replies, ← effects, replies] at inside
  rcases mem_repliesTo.mp inside with ⟨tx', msg, full, isValue⟩ | ⟨tx', result, msg, _, isValue⟩
  · obtain rfl := Option.some.inj (asked.symm.trans (tracked.tx_of_add member msg))
    exact .inl ⟨msg, full, isValue⟩
  · obtain rfl := Option.some.inj (asked.symm.trans (tracked.tx_of_result member msg))
    exact .inr ⟨result, msg, isValue⟩

/-- What holds of a host node, whatever its output port. -/
structure Hosted (config : MempoolConfig) (copies : Nat) (n : Node) : Prop
    extends n.Tracked config copies where
  checked : n.Checked checkTx
  sound : ∃ queue, Sound n.pool queue
  /-- Every message found only accepted transactions in the pool. -/
  found : ∀ r ∈ n.pool.log, ∃ queue, Represents r.before.txs r.before.txHashes queue ∧
    ∀ pair ∈ queue, Accepted pair

theorem hosted_start (config : MempoolConfig) (port : OutputPort) (copies : Nat) :
    (start port copies).Hosted config copies where
  toTracked := tracked_start config port copies
  checked := by simp [Checked, received, start, History.init]
  sound := ⟨[], sound_init rfl rfl⟩
  found := by simp [start, History.init]

namespace Hosted

theorem step (hosted : n.Hosted config copies) (host : label.ChecksWith checkTx)
    (h : Node.step config n label = some n') : n'.Hosted config copies where
  toTracked := hosted.toTracked.step h
  checked := hosted.checked.step host h
  sound := sound_step hosted.sound h
  found := by
    rcases handle_or_idle label with ⟨around, rfl⟩ | idle
    · obtain ⟨msg, rest, handled, _, _, rfl⟩ := handle_cases h
      intro r member
      rcases List.mem_append.mp member with old | new
      · exact hosted.found r old
      · obtain rfl := List.mem_singleton.mp new
        obtain ⟨queue, sound⟩ := hosted.sound
        exact ⟨queue, sound.represents, queue_accepted hosted.checked hosted.faithful sound⟩
    · rw [(frame_step idle h).log]
      exact hosted.found

/-- What was found under a transaction's hash is that transaction. -/
theorem content_of_present (hosted : n.Hosted config copies) {r : Record}
    (member : r ∈ n.pool.log) {t : TestTx} (present : t.hash.toTxHash ∈ r.before.txHashes) :
    content r.before t.hash.toTxHash = some t.serialize := by
  obtain ⟨queue, rep, accepted⟩ := hosted.found r member
  obtain ⟨⟨hash, tx⟩, inside, rfl⟩ := List.mem_map.mp (rep.mem_iff.mp present)
  obtain rfl := ((accepted _ inside).hash_eq_iff t).mp rfl
  exact (content_iff rep).mpr inside

end Hosted

theorem log_grows (h : step config n label = some n') : n.pool.log <+: n'.pool.log := by
  rcases handle_or_idle label with ⟨around, rfl⟩ | idle
  · obtain ⟨_, _, _, _, _, rfl⟩ := handle_cases h
    exact List.prefix_append _ _
  · rw [(frame_step idle h).log]

theorem asked_grows (h : step config n label = some n') : n.asked <+: n'.asked := by
  rcases handle_or_idle label with ⟨around, rfl⟩ | idle
  · obtain ⟨_, _, _, _, _, rfl⟩ := handle_cases h
    exact List.prefix_rfl
  · rw [(frame_step idle h).asked]
    exact List.prefix_append _ _

end Node

namespace Host

/-- The mempool handled the check result, or the refused request, of the call
    with this reply port, and what it found and did then is what the outcome
    says. -/
def Explains (config : MempoolConfig) (debug : Bytes → String) (r : Record) (call : PortId)
    (tx : TestTx) : TestCheckTxOutcome → Prop
  | .success hash => hash = tx.hash ∧ tx.id ≠ 9999 ∧
      r.msg = .checkTxResult tx.serialize (checkTx tx.serialize) (some call) ∧
      r.inserted = some (tx.hash.toTxHash, tx.serialize)
  | .error hash reason => hash = tx.hash ∧
      (r.msg = .checkTxResult tx.serialize (checkTx tx.serialize) (some call) ∧
          (tx.id = 9999 ∧ reason = "Transaction validation failed" ∨
            tx.id ≠ 9999 ∧ content r.before tx.hash.toTxHash = some tx.serialize ∧
              reason = (MempoolError.txAlreadyExists tx.hash.toTxHash).toString debug) ∨
        r.msg = .add tx.serialize call ∧ config.maxPoolSize ≤ r.before.txs.length ∧
          reason = (MempoolError.mempoolFull r.before.txs.length config.maxPoolSize).toString debug)

/-- The call was made for the transaction, and the message that answered it
    explains the outcome. -/
def Explained (config : MempoolConfig) (debug : Bytes → String) (n : Node) (call : PortId)
    (answer : TestTx × TestCheckTxOutcome) : Prop :=
  n.asked[call]? = some answer.1.serialize ∧
    ∃ r ∈ n.pool.log, call ∈ r.replies.map Prod.fst ∧
      Explains config debug r call answer.1 answer.2

/-- What explains an outcome stays in the log. -/
theorem Explained.mono {config : MempoolConfig} {debug : Bytes → String} {n n' : Node}
    {call : PortId} {answer : TestTx × TestCheckTxOutcome}
    (explained : Explained config debug n call answer) (asked : n.asked <+: n'.asked)
    (log : n.pool.log <+: n'.pool.log) : Explained config debug n' call answer := by
  obtain ⟨made, r, member, answered⟩ := explained
  exact ⟨Transition.found_of_grown asked made, r, log.subset member, answered⟩

end Host

/-- What becomes of the check result of a transaction. -/
theorem verdict_checkTx (s : State) (tx : TestTx) :
    (tx.id = 9999 ∧ verdict s (checkTx tx.serialize) = .ok ⟨false, tx.hash.toTxHash⟩) ∨
      (tx.id ≠ 9999 ∧ tx.hash.toTxHash ∈ s.txHashes ∧
        verdict s (checkTx tx.serialize) = .error (.txAlreadyExists tx.hash.toTxHash)) ∨
      (tx.id ≠ 9999 ∧ verdict s (checkTx tx.serialize) = .ok ⟨true, tx.hash.toTxHash⟩) := by
  by_cases allowed : tx.id = 9999
  · have checks : checkTx tx.serialize = .ok ⟨false, tx.hash.toTxHash⟩ :=
      checkTx_eq_ok.mpr ⟨tx, rfl, by simp [allowed]⟩
    exact .inl ⟨allowed, verdict_eq_ok.mpr ⟨checks, by simp⟩⟩
  · have checks : checkTx tx.serialize = .ok ⟨true, tx.hash.toTxHash⟩ :=
      checkTx_eq_ok.mpr ⟨tx, rfl, by simp [allowed]⟩
    by_cases present : tx.hash.toTxHash ∈ s.txHashes
    · exact .inr (.inl ⟨allowed, present, verdict_eq_exists.mpr ⟨_, checks, rfl, rfl, present⟩⟩)
    · exact .inr (.inr ⟨allowed, verdict_eq_ok.mpr ⟨checks, fun both => present both.2⟩⟩)

/-- The forwarded form of a reply is explained by the record that made it. -/
theorem Node.Hosted.reply_explained {config : MempoolConfig} {copies : Nat} {n : Node}
    (hosted : n.Hosted config copies) (debug : Bytes → String) {call : PortId} {tx : TestTx}
    (asked : n.asked[call]? = some tx.serialize) {value : Except MempoolError CheckTxOutcome}
    (replied : (call, value) ∈ n.replies) :
    ∃ told, Rpc.forwarded debug tx value = .addTxReply tx told ∧
      Explained config debug n call (tx, told) := by
  obtain ⟨r, member, inside, source⟩ := hosted.reply_source asked replied
  suffices explains : ∃ told, Rpc.forwarded debug tx value = .addTxReply tx told ∧
      Explains config debug r call tx told by
    obtain ⟨told, forwards, explains⟩ := explains
    exact ⟨told, forwards, asked, r, member, List.mem_map_of_mem inside, explains⟩
  rcases source with ⟨msg, full, rfl⟩ | ⟨result, msg, rfl⟩
  · exact ⟨_, rfl, rfl, .inr ⟨msg, full, rfl⟩⟩
  · have received : r.msg ∈ n.received := List.mem_append_left _ (List.mem_map_of_mem member)
    rw [msg] at received
    have isCheck : result = checkTx tx.serialize := hosted.checked _ _ _ received
    rw [isCheck] at msg ⊢
    rcases verdict_checkTx r.before tx with ⟨refused, verdict⟩ | ⟨allowed, present, verdict⟩ |
      ⟨allowed, verdict⟩
    · rw [verdict]
      exact ⟨_, rfl, rfl, .inl ⟨msg, .inl ⟨refused, rfl⟩⟩⟩
    · rw [verdict]
      have content := hosted.content_of_present member present
      exact ⟨_, rfl, rfl, .inl ⟨msg, .inr ⟨allowed, content, rfl⟩⟩⟩
    · have inserted : r.inserted = some (tx.hash.toTxHash, tx.serialize) := by
        rw [(hosted.faithful r member).2.inserted_eq, msg]
        exact newcomer_eq_some_iff.mpr ⟨_, rfl, verdict, rfl⟩
      rw [verdict]
      exact ⟨_, rfl, rfl, allowed, msg, inserted⟩

namespace Host

/-- An outcome that a client has got. -/
def Client.heard : Client → Option TestCheckTxOutcome
  | .told outcome => outcome
  | _ => none

theorem Client.receive_cases (client : Client) (reply : PortId)
    (outcome : Option TestCheckTxOutcome) :
    client.receive (some (reply, outcome)) = client ∨
      client = .asking reply ∧ client.receive (some (reply, outcome)) = .told outcome := by
  cases client with
  | idle | adding | added | told => exact .inl rfl
  | asking port =>
      by_cases mine : reply = port
      · exact .inr ⟨congrArg Client.asking mine.symm, if_pos mine⟩
      · exact .inl (if_neg mine)

namespace TestNode

/-- Every outcome in the state of the `Rpc` actor or shown by `get_state`. -/
def shown (t : TestNode) : List TestCheckTxOutcome :=
  t.state.toList ++ t.client.heard.toList ++
    t.asked.filterMap (fun call => match call.2 with | .ok outcome => outcome | .error _ => none)

/-- The answers told are those of these calls, made one after the other. -/
structure Accounts (config : MempoolConfig) (debug : Bytes → String) (t : TestNode)
    (calls : List PortId) : Prop where
  inOrder : calls.Pairwise (· < ·)
  explained : List.Forall₂ (Explained config debug t.node) calls t.answers

namespace Accounts

variable {config : MempoolConfig} {debug : Bytes → String} {t t' : TestNode} {calls : List PortId}
  {answer : TestTx × TestCheckTxOutcome}

theorem exists_call (accounts : t.Accounts config debug calls) (member : answer ∈ t.answers) :
    ∃ call, Explained config debug t.node call answer := by
  obtain ⟨sameLength, explained⟩ := List.forall₂_iff_get.mp accounts.explained
  obtain ⟨i, inside, rfl⟩ := List.getElem_of_mem member
  exact ⟨_, explained i (sameLength ▸ inside) inside⟩

/-- The node has gone on, and nothing was told. -/
theorem mono (accounts : t.Accounts config debug calls) (answers : t'.answers = t.answers)
    (asked : t.node.asked <+: t'.node.asked) (log : t.node.pool.log <+: t'.node.pool.log) :
    t'.Accounts config debug calls where
  inOrder := accounts.inOrder
  explained := by
    rw [answers]
    exact accounts.explained.imp (fun _ _ explained => explained.mono asked log)

/-- One more answer is told, to a call after all the others. -/
theorem tell (accounts : t.Accounts config debug calls) {call : PortId}
    (earlier : ∀ other ∈ calls, other < call)
    (explained : Explained config debug t.node call answer) (node : t'.node = t.node) (answers : t'.answers = t.answers ++ [answer]) :
    t'.Accounts config debug (calls ++ [call]) where
  inOrder := by
    refine List.pairwise_append.mpr ⟨accounts.inOrder, List.pairwise_singleton _ _, ?_⟩
    intro other among last isLast
    obtain rfl := List.mem_singleton.mp isLast
    exact earlier other among
  explained := by
    rw [answers, node]
    exact List.rel_append accounts.explained (.cons explained .nil)

end Accounts

/-- No answer is to this call yet, nor to a later one. -/
def nextCall (t : TestNode) : PortId := t.client.awaits.getD t.node.asked.length

/-- Every outcome is explained, and only those that were forwarded are shown. -/
structure Truthful (config : MempoolConfig) (debug : Bytes → String) (copies : Nat)
    (t : TestNode) : Prop where
  hosted : t.node.Hosted config copies
  asks : ∀ tx reply, t.client = .adding tx reply → t.node.asked[reply]? = some tx.serialize
  accounts : ∃ calls, t.Accounts config debug calls ∧ ∀ call ∈ calls, call < t.nextCall
  forwarded : ∀ outcome ∈ t.shown, outcome ∈ t.answers.map Prod.snd

theorem truthful_start (config : MempoolConfig) (debug : Bytes → String) (port : OutputPort)
    (copies : Nat) : (start port copies).Truthful config debug copies where
  hosted := Node.hosted_start config port copies
  asks := by simp [start]
  accounts := ⟨[], ⟨List.Pairwise.nil, List.Forall₂.nil⟩, by simp⟩
  forwarded := by simp [start, shown, Client.heard]

/-- Every app of the node checks as the host does. -/
def Label.Hosts (label : Label) : Prop := ∀ inner ∈ label.inner, inner.ChecksWith checkTx

variable {config : MempoolConfig} {debug : Bytes → String} {copies : Nat} {t t' : TestNode}

/-- What `resolve` forwards is the reply that the port got. -/
theorem resolve_forwards (h : step config debug t .resolve = some t') :
    ∃ tx reply, t.client = .adding tx reply ∧
      ((∃ outcome, (reply, outcome) ∈ t.node.replies ∧ t' = { t with
          mailbox := t.mailbox ++ [Rpc.forwarded debug tx outcome]
          client := .added tx (.success (.ok ())) }) ∨
        t' = { t with client := .added tx .senderError }) := by
  simp only [step] at h
  split at h
  · rename_i tx reply waiting
    refine ⟨tx, reply, waiting, ?_⟩
    split at h
    · rename_i outcome replied
      obtain ⟨before, after, split, _⟩ := List.lookup_eq_some_iff.mp replied
      exact .inl ⟨outcome, by simp [split], (Option.some.inj h).symm⟩
    · split at h
      · cases h
      · exact .inr (Option.some.inj h).symm
  · cases h

/-- Only `resolve` tells an answer. -/
theorem answers_step {label : Label} (h : step config debug t label = some t')
    (other : label ≠ .resolve) : t'.answers = t.answers := by
  cases label with
  | node inner =>
      obtain ⟨_, _, rfl⟩ := node_cases h
      rfl
  | addTx tx =>
      obtain ⟨_, _, _, rfl⟩ := addTx_cases h
      rfl
  | resolve => exact absurd rfl other
  | addTxReturns =>
      obtain ⟨_, _, _, rfl⟩ := addTxReturns_cases h
      rfl
  | getState =>
      obtain ⟨_, rfl⟩ := getState_cases h
      rw [answers_post, RpcMsg.answer, Option.toList_none, List.append_nil]
  | rpc =>
      obtain ⟨msg, rest, waiting, rfl⟩ := rpc_cases h
      exact answers_handled waiting _ _
  | getStateReturns =>
      obtain ⟨_, _, rfl⟩ := getStateReturns_cases h
      rfl

namespace Truthful

/-- A step that tells nothing leaves the account as it is. -/
theorem same_accounts (truthful : t.Truthful config debug copies) (answers : t'.answers = t.answers)
    (asked : t.node.asked <+: t'.node.asked) (log : t.node.pool.log <+: t'.node.pool.log)
    (later : t.nextCall ≤ t'.nextCall) :
    ∃ calls, t'.Accounts config debug calls ∧ ∀ call ∈ calls, call < t'.nextCall := by
  obtain ⟨calls, accounts, earlier⟩ := truthful.accounts
  refine ⟨calls, accounts.mono answers asked log, ?_⟩
  exact fun call member => Nat.lt_of_lt_of_le (earlier call member) later

/-- What the node does by itself neither answers the client nor unsays a
    record. -/
theorem node_grows (truthful : t.Truthful config debug copies) {node : Node}
    (hosted : node.Hosted config copies) (asked : t.node.asked <+: node.asked)
    (log : t.node.pool.log <+: node.pool.log) {client : Client}
    (heard : client.heard = t.client.heard)
    (asks : ∀ tx reply, client = .adding tx reply → node.asked[reply]? = some tx.serialize)
    (later : t.nextCall ≤ client.awaits.getD node.asked.length) :
    ({ t with node := node, client := client } : TestNode).Truthful config debug copies where
  hosted := hosted
  asks := asks
  accounts := truthful.same_accounts rfl asked log later
  forwarded := by
    intro outcome member
    refine truthful.forwarded outcome ?_
    simpa only [shown, heard] using member

theorem node_step (truthful : t.Truthful config debug copies) {inner : MalachiteMempool.Label}
    (host : inner.ChecksWith checkTx) (h : step config debug t (.node inner) = some t') :
    t'.Truthful config debug copies := by
  obtain ⟨node, stepped, rfl⟩ := node_cases h
  have asked := Node.asked_grows stepped
  refine truthful.node_grows (truthful.hosted.step host stepped) asked (Node.log_grows stepped) rfl
    ?_ ?_
  · intro tx reply waiting
    exact Transition.found_of_grown asked (truthful.asks tx reply waiting)
  · unfold nextCall
    cases t.client.awaits with
    | none => exact asked.length_le
    | some reply => exact Nat.le_refl reply

theorem addTx_step (truthful : t.Truthful config debug copies) {tx : TestTx}
    (h : step config debug t (.addTx tx) = some t') : t'.Truthful config debug copies := by
  obtain ⟨idle, node, stepped, rfl⟩ := addTx_cases h
  have host : (MalachiteMempool.Label.add tx.serialize).ChecksWith checkTx := trivial
  refine truthful.node_grows (truthful.hosted.step host stepped) (Node.asked_grows stepped)
    (Node.log_grows stepped) (by rw [idle]; rfl) ?_ ?_
  · intro tx' reply waiting
    obtain ⟨rfl, rfl⟩ := Client.adding.inj waiting
    obtain rfl := Option.some.inj stepped
    simp
  · rw [nextCall, idle]
    exact Nat.le_refl _

/-- An answer is told while the client waits for it, and is explained by what
    became of that very call. -/
theorem tells (truthful : t.Truthful config debug copies) {label : Label}
    (h : step config debug t label = some t') :
    t'.answers = t.answers ∨ ∃ tx reply told, t.client = .adding tx reply ∧
      t'.answers = t.answers ++ [(tx, told)] ∧ Explained config debug t.node reply (tx, told) := by
  by_cases resolves : label = .resolve
  · subst resolves
    obtain ⟨tx, reply, waiting, ⟨outcome, replied, rfl⟩ | rfl⟩ := resolve_forwards h
    · have asked := truthful.asks tx reply waiting
      obtain ⟨told, forwards, explained⟩ := truthful.hosted.reply_explained debug asked replied
      refine .inr ⟨tx, reply, told, waiting, ?_, explained⟩
      rw [forwards]
      exact answers_post _ _ _
    · exact .inl rfl
  · exact .inl (answers_step h resolves)

theorem resolve_step (truthful : t.Truthful config debug copies)
    (h : step config debug t .resolve = some t') : t'.Truthful config debug copies := by
  obtain ⟨tx, reply, waiting, outcome⟩ := resolve_forwards h
  have heard : ∀ call, (Client.added tx call).heard = t.client.heard := by
    rw [waiting]
    exact fun _ => rfl
  have isNext : t.nextCall = reply := by
    rw [nextCall, waiting]
    rfl
  have asked := truthful.asks tx reply waiting
  have made : reply < t.node.asked.length := (List.getElem?_eq_some_iff.mp asked).1
  rcases outcome with ⟨outcome, replied, rfl⟩ | rfl
  · obtain ⟨told, forwards, explained⟩ := truthful.hosted.reply_explained debug asked replied
    rw [forwards]
    refine ⟨truthful.hosted, by simp, ?_, ?_⟩
    · obtain ⟨calls, accounts, earlier⟩ := truthful.accounts
      rw [isNext] at earlier
      refine ⟨calls ++ [reply], accounts.tell earlier explained rfl (answers_post _ _ _), ?_⟩
      intro call member
      rcases List.mem_append.mp member with old | new
      · exact Nat.lt_trans (earlier call old) made
      · obtain rfl := List.mem_singleton.mp new
        exact made
    · intro outcome member
      rw [answers_post, List.map_append]
      refine List.mem_append_left _ (truthful.forwarded outcome ?_)
      simpa only [shown, heard] using member
  · refine truthful.node_grows truthful.hosted List.prefix_rfl List.prefix_rfl (heard _)
      (by simp) ?_
    rw [isNext]
    exact Nat.le_of_lt made

theorem addTxReturns_step (truthful : t.Truthful config debug copies)
    (h : step config debug t .addTxReturns = some t') : t'.Truthful config debug copies := by
  obtain ⟨tx, call, finished, rfl⟩ := addTxReturns_cases h
  have same := truthful.forwarded
  simp only [shown, finished] at same
  refine ⟨truthful.hosted, by simp, ?_, same⟩
  refine truthful.same_accounts rfl List.prefix_rfl List.prefix_rfl ?_
  rw [nextCall, finished]
  exact Nat.le_refl _

theorem getState_step (truthful : t.Truthful config debug copies)
    (h : step config debug t .getState = some t') : t'.Truthful config debug copies := by
  have untold := answers_step h (by simp)
  obtain ⟨idle, rfl⟩ := getState_cases h
  have same := truthful.forwarded
  simp only [shown, idle] at same
  refine ⟨truthful.hosted, by simp, ?_, ?_⟩
  · refine truthful.same_accounts untold List.prefix_rfl List.prefix_rfl ?_
    rw [nextCall, idle]
    exact Nat.le_refl _
  · rw [untold]
    exact same

/-- The actor remembers the reply it got, or shows the one it remembers. -/
theorem rpc_step (truthful : t.Truthful config debug copies)
    (h : step config debug t .rpc = some t') : t'.Truthful config debug copies := by
  obtain ⟨msg, rest, waiting, rfl⟩ := rpc_cases h
  have same := answers_handled waiting
  have forwarded := truthful.forwarded
  cases msg with
  | addTxReply tx outcome =>
      rw [Rpc.handle, Client.receive_none]
      refine ⟨truthful.hosted, truthful.asks, ?_, ?_⟩
      · exact truthful.same_accounts (same _ _) List.prefix_rfl List.prefix_rfl (Nat.le_refl _)
      intro outcome' member
      rw [same]
      simp only [shown, List.mem_append] at member forwarded
      rcases member with (new | heard) | before
      · obtain rfl : outcome' = outcome := by simpa using new
        exact List.mem_map.mpr ⟨(tx, outcome'), by simp [answers, waiting, RpcMsg.answer], rfl⟩
      · exact forwarded outcome' (.inl (.inr heard))
      · exact forwarded outcome' (.inr before)
  | getState reply =>
      rw [Rpc.handle]
      rcases Client.receive_cases t.client reply t.state with unmoved | ⟨asking, told⟩
      · rw [unmoved]
        refine ⟨truthful.hosted, truthful.asks, ?_, by rw [same]; exact forwarded⟩
        exact truthful.same_accounts (same _ _) List.prefix_rfl List.prefix_rfl (Nat.le_refl _)
      · rw [told]
        have later : t.nextCall ≤ t.node.asked.length := by
          rw [nextCall, asking]
          exact Nat.le_refl _
        refine ⟨truthful.hosted, by simp,
          truthful.same_accounts (same _ _) List.prefix_rfl List.prefix_rfl later, ?_⟩
        intro outcome member
        rw [same]
        simp only [shown, List.mem_append, Client.heard] at member forwarded
        rcases member with (current | current) | before
        · exact forwarded outcome (.inl (.inl current))
        · exact forwarded outcome (.inl (.inl current))
        · exact forwarded outcome (.inr before)

theorem getStateReturns_step (truthful : t.Truthful config debug copies)
    (h : step config debug t .getStateReturns = some t') : t'.Truthful config debug copies := by
  obtain ⟨outcome, told, rfl⟩ := getStateReturns_cases h
  have same := truthful.forwarded
  have later : t.nextCall ≤ t.node.asked.length := by
    rw [nextCall, told]
    exact Nat.le_refl _
  refine ⟨truthful.hosted, by simp,
    truthful.same_accounts rfl List.prefix_rfl List.prefix_rfl later, ?_⟩
  intro outcome' member
  refine same outcome' ?_
  simp only [shown, told, Client.heard, List.filterMap_append, List.mem_append] at member ⊢
  rcases member with (current | nothing) | before | new
  · exact .inl (.inl current)
  · cases nothing
  · exact .inr before
  · exact .inl (.inr (by simpa using new))

theorem step (truthful : t.Truthful config debug copies) {label : Label} (hosts : label.Hosts)
    (h : TestNode.step config debug t label = some t') : t'.Truthful config debug copies := by
  cases label with
  | node inner => exact truthful.node_step (hosts inner rfl) h
  | addTx tx => exact truthful.addTx_step h
  | resolve => exact truthful.resolve_step h
  | addTxReturns => exact truthful.addTxReturns_step h
  | getState => exact truthful.getState_step h
  | rpc => exact truthful.rpc_step h
  | getStateReturns => exact truthful.getStateReturns_step h

end Truthful

/-- Whatever the interleaving and what is lost: each outcome forwarded to the
    `Rpc` actor of a host node with its one app says truly what became of its
    transaction in the call it answers, no two answer the same call, each is
    forwarded while the client waits for its call, and `get_state` shows no
    others. -/
theorem rpc_tells_truth (config : MempoolConfig) (debug : Bytes → String) (port : OutputPort)
    (labels : List Label) (hosts : ∀ label ∈ labels, label.Hosts) (t : TestNode)
    (ran : (system config debug).run (start port 1) labels = some t) :
    (∃ calls, t.Accounts config debug calls) ∧
    (∀ label t', (system config debug).step t label = some t' →
      t'.answers = t.answers ∨ ∃ tx reply told, t.client = .adding tx reply ∧
        t'.answers = t.answers ++ [(tx, told)] ∧
        Explained config debug t.node reply (tx, told)) ∧
    ∀ last outcome, (last, .ok (some outcome)) ∈ t.asked →
      ∃ call tx, (tx, outcome) ∈ t.answers ∧
        Explained config debug t.node call (tx, outcome) := by
  have truthful : t.Truthful config debug 1 :=
    (system config debug).run_invariant (fun _ _ _ hosts truthful h => truthful.step hosts h) hosts
      (truthful_start config debug port 1) ran
  obtain ⟨calls, accounts, _⟩ := truthful.accounts
  refine ⟨⟨calls, accounts⟩, fun label t' h => truthful.tells h, ?_⟩
  intro last outcome returned
  have inside : outcome ∈ t.shown :=
    List.mem_append_right _ (List.mem_filterMap.mpr ⟨_, returned, rfl⟩)
  obtain ⟨⟨tx, _⟩, member, rfl⟩ := List.mem_map.mp (truthful.forwarded outcome inside)
  obtain ⟨call, explained⟩ := accounts.exists_call member
  exact ⟨call, tx, member, explained⟩

def poolForTwo : MempoolConfig := { MempoolConfig.default with maxPoolSize := 2 }

/-- Five calls on a pool for two: taken in, there already, refused by the check,
    taken in, and no room. -/
def fiveCalls : List Label :=
  let call (id : UInt64) : List Label :=
    .addTx ⟨id⟩ :: ([.handle .calm, .forward 0, .app 0 checkTx, .handle .calm].map .node) ++
      [.resolve, .addTxReturns]
  call 1 ++ call 1 ++ call 9999 ++ call 2 ++
    [.addTx ⟨3⟩, .node (.handle .calm), .resolve, .addTxReturns, .getState, .rpc, .rpc, .rpc, .rpc,
      .rpc, .rpc, .getStateReturns]

theorem fiveCalls_told :
    ∃ t, (system poolForTwo (fun _ => "")).run (start OutputPort.default 1) fiveCalls = some t ∧
      t.answers = [(⟨1⟩, .success ⟨1⟩),
        (⟨1⟩, .error ⟨1⟩ "Transaction already exists: TxHash()"),
        (⟨9999⟩, .error ⟨9999⟩ "Transaction validation failed"),
        (⟨2⟩, .success ⟨2⟩),
        (⟨3⟩, .error ⟨3⟩ "Mempool is full (current size: 2, max: 2)")] ∧
      ∃ calls, t.Accounts poolForTwo (fun _ => "") calls := by
  have hosts : ∀ label ∈ fiveCalls, label.Hosts := by
    simp [fiveCalls, Label.Hosts, Label.inner, MalachiteMempool.Label.ChecksWith]
  have reached : ((system poolForTwo (fun _ => "")).run (start OutputPort.default 1) fiveCalls).map
      answers = some [(⟨1⟩, .success ⟨1⟩),
        (⟨1⟩, .error ⟨1⟩ "Transaction already exists: TxHash()"),
        (⟨9999⟩, .error ⟨9999⟩ "Transaction validation failed"),
        (⟨2⟩, .success ⟨2⟩),
        (⟨3⟩, .error ⟨3⟩ "Mempool is full (current size: 2, max: 2)")] := by decide +kernel
  obtain ⟨t, ran, told⟩ := Option.map_eq_some_iff.mp reached
  exact ⟨t, ran, told, (rpc_tells_truth poolForTwo _ _ fiveCalls hosts t ran).1⟩

end TestNode

end Host

end MalachiteMempool
