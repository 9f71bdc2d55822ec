import MalachiteMempool.Cluster.Refinement

/-! # Where transactions come from

Every transaction that a node mentions, in its mailbox, in a check under way, in
an overwritten event or in its pool, was submitted by a client: by one of its
own, or by a client of another node that took it into its own pool and broadcast
it.  Nothing is assumed here about apps, removals, losses or repetitions.

The argument is about the abstract cluster; the refinement carries it to the
nodes on their real network.
-/

namespace MalachiteMempool

open Broadcast

namespace Node

/-- Every transaction the node mentions is a known one. -/
structure Sourced (known : RawTx → Prop) (n : Node) : Prop where
  submitted : ∀ msg ∈ n.received, ∀ x, msg.submission = some x → known x.1
  returned : ∀ msg ∈ n.received, ∀ x, msg.check = some x → known x.1
  underway : ∀ x ∈ (n.checks : Multiset Check) + n.lost, known x.1

theorem sourced_start (known : RawTx → Prop) (port : OutputPort) (subscribers : Nat) :
    (start port subscribers).Sourced known where
  submitted := by
    intro msg member
    cases member
  returned := by
    intro msg member
    cases member
  underway := by
    simp [checks, lost, start, Node.port, History.init, OutputPort.subscribed, Channel.waiting,
      Channel.missed]

theorem Sourced.mono {known known' : RawTx → Prop} {n : Node} (sourced : n.Sourced known)
    (weaker : ∀ tx, known tx → known' tx) : n.Sourced known' where
  submitted := fun msg member x submits => weaker _ (sourced.submitted msg member x submits)
  returned := fun msg member x checks => weaker _ (sourced.returned msg member x checks)
  underway := fun x member => weaker _ (sourced.underway x member)

/-- Only an app brings check results, and only of the checks in its mailbox. -/
theorem mem_checks_of_posted {n : Node} {label : Label} {msg : Msg} {x : Check}
    (posts : msg ∈ n.posted label) (isCheck : msg.check = some x) : x ∈ n.checks := by
  cases label with
  | appRemove | appTake | handle | forward => cases posts
  | add | gossip | remove | take =>
      obtain rfl := List.mem_singleton.mp posts
      cases isCheck
  | app app check =>
      simp only [posted] at posts
      split at posts
      · rename_i first rest present
        obtain rfl := List.mem_singleton.mp posts
        rw [appHandle_check] at isCheck
        have inBox : x ∈ (first :: rest).filterMap Host.AppMsg.check :=
          List.mem_filterMap.mpr ⟨first, List.mem_cons_self, isCheck⟩
        have inApps : x ∈ n.apps.flatMap (fun box => box.filterMap Host.AppMsg.check) :=
          List.mem_flatMap.mpr ⟨_, List.mem_of_getElem? present, inBox⟩
        simp only [checks, List.mem_append]
        exact .inl (.inr inApps)
      · cases posts

theorem Sourced.step {config : MempoolConfig} {known : RawTx → Prop} {n n' : Node} {label : Label}
    (sourced : n.Sourced known) (settled : Msg.subscribe ∉ n.mailbox)
    (posts : ∀ x ∈ (n.posted label).filterMap Msg.submission, known x.1)
    (h : Node.step config n label = some n') : n'.Sourced known where
  submitted := by
    intro msg member x submits
    rw [received_step h, List.mem_append] at member
    rcases member with old | new
    · exact sourced.submitted msg old x submits
    · exact posts x (List.mem_filterMap.mpr ⟨msg, new, submits⟩)
  returned := by
    intro msg member x isCheck
    rw [received_step h, List.mem_append] at member
    rcases member with old | new
    · exact sourced.returned msg old x isCheck
    · have checking := mem_checks_of_posted new isCheck
      exact sourced.underway x (Multiset.mem_add.mpr (.inl (Multiset.mem_coe.mpr checking)))
  underway := by
    intro x member
    have balance := accounts_step settled h
    have accounted : x ∈ (n.checks : Multiset Check) + n.lost + n.admitted config label := by
      rw [← balance]
      exact Multiset.mem_add.mpr (.inl member)
    rcases Multiset.mem_add.mp accounted with old | admits
    · exact sourced.underway x old
    · -- what a step lets in is the submission it handles
      cases label with
      | add | gossip | remove | take | appRemove | appTake | forward | app => cases admits
      | handle around =>
          simp only [admitted] at admits
          split at admits
          · rename_i check submits
            obtain ⟨msg, first, isSubmission⟩ := Option.bind_eq_some_iff.mp submits
            have waiting : msg ∈ n.received := List.mem_append_right _ (List.mem_of_head? first)
            split at admits
            · cases admits
            · obtain rfl := Multiset.eq_of_mem_replicate admits
              exact sourced.submitted msg waiting x isSubmission
          · cases admits

/-- What is in the pool was brought by a check result. -/
theorem Sourced.pool {config : MempoolConfig} {known : RawTx → Prop} {n : Node}
    (sourced : n.Sourced known) (faithful : ∀ r ∈ n.pool.log, r.Faithful config)
    (sound : ∃ queue, MalachiteMempool.Sound n.pool queue) : ∀ tx ∈ n.pool.state.txs, known tx := by
  obtain ⟨queue, sound⟩ := sound
  intro tx member
  rw [sound.represents.items_eq] at member
  obtain ⟨pair, inQueue, rfl⟩ := List.mem_map.mp member
  obtain ⟨earlier, r, later, split, inserts, _⟩ := sound.recent pair inQueue
  have inLog : r ∈ n.pool.log := by simp [split]
  rw [(faithful r inLog).2.inserted_eq] at inserts
  have received : r.msg ∈ n.received := List.mem_append_left _ (List.mem_map_of_mem inLog)
  cases msg : r.msg with
  | subscribe | networkEvent | add | take | remove => simp [msg, newcomer] at inserts
  | checkTxResult tx result reply =>
      rw [msg] at inserts received
      obtain ⟨outcome, _, _, same⟩ := newcomer_eq_some_iff.mp inserts
      obtain ⟨_, rfl⟩ := Prod.mk.inj same
      exact sourced.returned _ received (_, reply) rfl

end Node

namespace Cluster

variable {ι : Type*}

/-- Submitted by a client of this node, or by a client of another node that has
    broadcast it. -/
def Submitted (c : Cluster ι) (i : ι) (tx : RawTx) : Prop :=
  tx ∈ (c.nodes i).asked ∨
    ∃ j, j ≠ i ∧ tx ∈ (c.nodes j).asked ∧ batchOf tx ∈ (c.nodes j).broadcasts

structure Traced (config : MempoolConfig) (c : Cluster ι) : Prop where
  single : ∀ i, (c.nodes i).Single config
  sound : ∀ i, ∃ queue, MalachiteMempool.Sound (c.nodes i).pool queue
  sourced : ∀ i, (c.nodes i).Sourced (c.Submitted i)

theorem traced_start (config : MempoolConfig) (port : OutputPort) :
    (start port : Cluster ι).Traced config where
  single := fun _ => Node.single_start config port
  sound := fun _ => ⟨[], sound_init rfl rfl⟩
  sourced := fun _ => Node.sourced_start _ port 1

theorem asked_grows {config : MempoolConfig} {n n' : Node} {label : MalachiteMempool.Label}
    (h : Node.step config n label = some n') : n.asked <+: n'.asked := by
  rcases Node.handle_or_idle label with ⟨around, rfl⟩ | idle
  · obtain ⟨msg, rest, handled, _, _, rfl⟩ := Node.handle_cases h
    exact List.prefix_rfl
  · rw [(Node.frame_step idle h).asked]
    exact List.prefix_append _ _

variable [DecidableEq ι]

/-- What was submitted stays submitted. -/
theorem Submitted.step {config : MempoolConfig} {c c' : Cluster ι} {label : Label ι} {i : ι}
    {tx : RawTx} (submitted : c.Submitted i tx) (h : step config c label = some c') :
    c'.Submitted i tx := by
  obtain ⟨k, l, next, _, taken, nodes, _⟩ := step_cases h
  have grows : ∀ j, (c.nodes j).asked <+: (c'.nodes j).asked ∧
      (c.nodes j).broadcasts <+: (c'.nodes j).broadcasts := by
    intro j
    rw [nodes]
    by_cases same : j = k
    · subst same
      rw [Function.update_self]
      exact ⟨asked_grows taken, ⟨_, (Node.broadcasts_grow taken).symm⟩⟩
    · rw [Function.update_of_ne same]
      exact ⟨List.prefix_rfl, List.prefix_rfl⟩
  rcases submitted with own | ⟨j, different, asked, broadcast⟩
  · exact .inl ((grows i).1.subset own)
  · exact .inr ⟨j, different, (grows j).1.subset asked, (grows j).2.subset broadcast⟩

/-- A step posts only what was submitted somewhere. -/
theorem posts_submitted {config : MempoolConfig} {c c' : Cluster ι} {label : Label ι}
    (relays : label.Relays) (single : ∀ i, (c.nodes i).Single config)
    (h : step config c label = some c') {i : ι} {l : MalachiteMempool.Label}
    (moves : c.move label = some (i, l)) :
    ∀ x ∈ ((c.nodes i).posted l).filterMap Msg.submission, c'.Submitted i x.1 := by
  intro x posts
  rcases Node.posted_submission posts with ⟨tx, rfl, rfl⟩ | ⟨event, rfl, submits⟩
  · obtain ⟨k, l', next, moves', taken, nodes, _⟩ := step_cases h
    obtain ⟨rfl, rfl⟩ := Prod.mk.inj (Option.some.inj (moves.symm.trans moves'))
    refine .inl ?_
    rw [nodes, Function.update_self, (Node.frame_step (by simp) taken).asked]
    simp
  · cases label with
    | on node label =>
        obtain ⟨rfl, isGossip⟩ := Prod.mk.inj (Option.some.inj moves)
        cases (relays event isGossip).symm.trans submits
    | deliver delivery peer id =>
        simp only [move] at moves
        split at moves
        · cases moves
        · rename_i different
          obtain ⟨batch, found, same⟩ := Option.map_eq_some_iff.mp moves
          obtain ⟨rfl, isEvent⟩ := Prod.mk.inj same
          obtain rfl := MalachiteMempool.Label.gossip.inj isEvent
          have broadcast := List.mem_of_getElem? found
          obtain ⟨tx, asked, rfl⟩ := (single delivery.origin).exists_of_broadcast broadcast
          obtain rfl := Option.some.inj submits
          have submitted : c.Submitted delivery.target tx :=
            .inr ⟨delivery.origin, different, asked, broadcast⟩
          exact submitted.step h

theorem Traced.step {config : MempoolConfig} {c c' : Cluster ι} {label : Label ι}
    (traced : c.Traced config) (relays : label.Relays) (h : step config c label = some c') :
    c'.Traced config where
  single := nodes_step (fun _ _ _ _ _ single taken => single.step taken) traced.single h
  sound := nodes_step (fun _ _ _ _ _ sound taken => Node.sound_step sound taken) traced.sound h
  sourced := by
    obtain ⟨k, l, next, moves, taken, nodes, _⟩ := step_cases h
    intro i
    have before := (traced.sourced i).mono (fun tx submitted => submitted.step h)
    rw [nodes]
    by_cases same : i = k
    · subst same
      rw [Function.update_self]
      exact before.step (traced.single i).wired.settled
        (posts_submitted relays traced.single h moves) taken
    · rw [Function.update_of_ne same]
      exact before

theorem run_traced {config : MempoolConfig} {port : OutputPort} {labels : List (Label ι)}
    {c : Cluster ι} (relays : ∀ label ∈ labels, label.Relays)
    (ran : (system config).run (start port) labels = some c) : c.Traced config :=
  (system config).run_invariant (fun _ _ _ relays traced h => traced.step relays h) relays
    (traced_start config port) ran

end Cluster

namespace Stack

variable {ι : Type*} [DecidableEq ι]

/-- Through the whole network, whatever is lost, late or repeated: a transaction
    in a pool was submitted by a client of that node, or by a client of another
    node which took it and broadcast it. -/
theorem pools_hold_submitted (config : MempoolConfig) (name : ι → Network.PeerId)
    (port : OutputPort) (capacities : Network.Capacities) (labels : List (Label ι)) (s : Stack ι)
    (ran : (system config name).run (start port capacities) labels = some s) :
    ∀ i, ∀ tx ∈ (s.peers i).node.pool.state.txs, tx ∈ (s.peers i).node.asked ∨
      ∃ j, j ≠ i ∧ tx ∈ (s.peers j).node.asked ∧ batchOf tx ∈ (s.peers j).node.broadcasts := by
  obtain ⟨actions, c, matched, relays, same⟩ := exists_cluster_run ran
  have traced := Cluster.run_traced relays matched
  intro i tx member
  have submitted := (traced.sourced i).pool (traced.single i).faithful (traced.sound i) tx
    (by rwa [same i])
  simpa only [Cluster.Submitted, same] using submitted

/-- The second node never heard of the transaction from a client of its own. -/
theorem journey_submitted :
    ∃ s, (system MempoolConfig.default peerNamed).run
        (start OutputPort.default Network.Capacities.default) journey = some s ∧
      (s.peers true).node.pool.state.txs.length = 1 ∧
      ∀ tx ∈ (s.peers true).node.pool.state.txs, tx ∈ (s.peers true).node.asked ∨
        ∃ j, j ≠ true ∧ tx ∈ (s.peers j).node.asked ∧ batchOf tx ∈ (s.peers j).node.broadcasts := by
  obtain ⟨s, ran, counts⟩ := Option.map_eq_some_iff.mp journey_arrives
  exact ⟨s, ran, (Prod.mk.inj counts).2, pools_hold_submitted _ peerNamed _ _ journey s ran true⟩

end Stack

end MalachiteMempool
