import MalachiteMempool.Cluster.System
import MalachiteMempool.Node.Journey

/-! # Convergence

Nodes that lose nothing and check alike, with no removals.  Only what a local
submission newly inserts is broadcast, so it has to be shown that nothing else
is needed: every hash in any pool was broadcast by some node.  A node that is
full already holds every submitted hash as long as there is room for all of
them, so what it turns away is not missed.
-/

namespace MalachiteMempool

theorem batchOf_injective {tx tx' : RawTx} (same : batchOf tx = batchOf tx') : tx = tx' := by
  obtain ⟨bytes⟩ := tx
  obtain ⟨bytes'⟩ := tx'
  simpa [batchOf, RawTx.toVec] using same

namespace Node.Single

variable {config : MempoolConfig} {n : Node}

theorem exists_of_broadcast (single : n.Single config) {batch : MempoolTransactionBatch}
    (made : batch ∈ n.broadcasts) : ∃ tx ∈ n.asked, batch = batchOf tx := by
  rw [single.broadcasts_eq] at made
  obtain ⟨⟨port, tx⟩, member, rfl⟩ := List.mem_map.mp made
  obtain ⟨r, inLog, isSource⟩ := List.mem_filterMap.mp member
  have asked := single.asked_of_returned
    (List.mem_filterMap.mpr ⟨r, inLog, Record.returns_of_source isSource⟩)
  exact ⟨tx, List.mem_of_getElem? asked, rfl⟩

end Node.Single

namespace Cluster

variable {ι : Type*}

/-- No removals, one check function, working network actors, and transactions
    from peers only through the gossip layer. -/
def Label.Gossips (check : RawTx → AppResult) : Label ι → Prop
  | .on _ label => label.Keeps check ∧
      ∀ event, label = .gossip event → (Msg.networkEvent event).submission = none
  | .deliver _ _ _ => True

/-- Every hash in any pool was broadcast by some node, whose own pool has it. -/
structure Informed (config : MempoolConfig) (check : RawTx → AppResult) (c : Cluster ι) : Prop where
  healthy : ∀ i, (c.nodes i).Healthy config check
  heard : ∀ i tx, (tx, none) ∈ (c.nodes i).flight → ∃ j, batchOf tx ∈ (c.nodes j).broadcasts
  known : ∀ i hash, hash ∈ (c.nodes i).pool.state.txHashes →
    ∃ j tx, batchOf tx ∈ (c.nodes j).broadcasts ∧ validHash check tx = some hash
  held : ∀ i tx hash, batchOf tx ∈ (c.nodes i).broadcasts → validHash check tx = some hash →
    hash ∈ (c.nodes i).pool.state.txHashes

theorem informed_start (config : MempoolConfig) (check : RawTx → AppResult) :
    (start OutputPort.unbounded : Cluster ι).Informed config check where
  healthy := fun _ => Node.healthy_start config check
  heard := by
    intro i tx member
    simp [start, Node.start, Node.flight, Node.checks, Node.port, History.init,
      OutputPort.subscribed, Broadcast.Channel.waiting] at member
  known := by
    intro i hash member
    simp [start, Node.start, History.init, State.default] at member
  held := by
    intro i tx hash member
    simp [start, Node.start, History.init, Node.broadcasts] at member

/-- The label a gossiping step gives to its node. -/
theorem move_keeps [DecidableEq ι] {check : RawTx → AppResult} {c : Cluster ι} {label : Label ι}
    (gossips : label.Gossips check) {i : ι} {l : MalachiteMempool.Label}
    (moves : c.move label = some (i, l)) : l.Keeps check := by
  cases label with
  | on node label =>
      obtain ⟨rfl, rfl⟩ := Prod.mk.inj (Option.some.inj moves)
      exact gossips.1
  | deliver delivery peer id =>
      simp only [move] at moves
      split at moves
      · cases moves
      · obtain ⟨batch, _, same⟩ := Option.map_eq_some_iff.mp moves
        obtain ⟨rfl, rfl⟩ := Prod.mk.inj same
        trivial

/-- A transaction that enters a node from the network was broadcast. -/
theorem move_gossip [DecidableEq ι] {config : MempoolConfig} {check : RawTx → AppResult}
    {c : Cluster ι}
    {label : Label ι} (gossips : label.Gossips check)
    (healthy : ∀ i, (c.nodes i).Healthy config check) {i : ι} {event : Network.Event} {x : Check}
    (moves : c.move label = some (i, .gossip event))
    (submits : (Msg.networkEvent event).submission = some x) :
    ∃ delivery peer id, label = .deliver delivery peer id ∧ delivery.target = i ∧
      delivery.origin ≠ i ∧ x.2 = none ∧
      (c.nodes delivery.origin).broadcasts[delivery.index]? = some (batchOf x.1) := by
  cases label with
  | on node label =>
      obtain ⟨rfl, isGossip⟩ := Prod.mk.inj (Option.some.inj moves)
      cases (gossips.2 event isGossip).symm.trans submits
  | deliver delivery peer id =>
      simp only [move] at moves
      split at moves
      · cases moves
      · rename_i different
        obtain ⟨batch, found, same⟩ := Option.map_eq_some_iff.mp moves
        obtain ⟨rfl, isEvent⟩ := Prod.mk.inj same
        obtain rfl := MalachiteMempool.Label.gossip.inj isEvent
        obtain ⟨tx, _, rfl⟩ := (healthy delivery.origin).single.exists_of_broadcast
          (List.mem_of_getElem? found)
        obtain rfl := Option.some.inj submits
        exact ⟨delivery, peer, id, rfl, rfl, different, rfl, found⟩

section Growth

variable {config : MempoolConfig} {check : RawTx → AppResult} {c c' : Cluster ι} {label : Label ι}

theorem healthy_step [DecidableEq ι] (gossips : label.Gossips check)
    (healthy : ∀ i, (c.nodes i).Healthy config check) (h : step config c label = some c') :
    ∀ i, (c'.nodes i).Healthy config check :=
  nodes_step (fun _ _ _ _ moves healthy taken => healthy.step (move_keeps gossips moves) taken)
    healthy h

/-- Pools and broadcasts only grow. -/
theorem grows [DecidableEq ι] (healthy : ∀ i, (c.nodes i).Healthy config check)
    (h : step config c label = some c') (i : ι) :
    (∀ hash ∈ (c.nodes i).pool.state.txHashes, hash ∈ (c'.nodes i).pool.state.txHashes) ∧
      (c.nodes i).broadcasts <+: (c'.nodes i).broadcasts := by
  obtain ⟨k, l, next, _, taken, nodes, _⟩ := step_cases h
  rw [nodes]
  by_cases same : i = k
  · subst same
    rw [Function.update_self]
    refine ⟨fun hash present => ((healthy i).txHashes_step taken hash).mpr (.inl present), ?_⟩
    rw [(healthy i).broadcasts_step taken]
    exact List.prefix_append _ _
  · rw [Function.update_of_ne same]
    exact ⟨fun _ present => present, List.prefix_rfl⟩

theorem still_broadcast [DecidableEq ι] (informed : c.Informed config check)
    (h : step config c label = some c') {tx : RawTx}
    (made : ∃ j, batchOf tx ∈ (c.nodes j).broadcasts) :
    ∃ j, batchOf tx ∈ (c'.nodes j).broadcasts := by
  obtain ⟨j, made⟩ := made
  exact ⟨j, (grows informed.healthy h j).2.subset made⟩

/-- What comes from the network was broadcast before it was delivered. -/
theorem Informed.heard_step [DecidableEq ι] (informed : c.Informed config check)
    (gossips : label.Gossips check) (h : step config c label = some c') (i : ι) (tx : RawTx)
    (member : (tx, none) ∈ (c'.nodes i).flight) : ∃ j, batchOf tx ∈ (c'.nodes j).broadcasts := by
  apply still_broadcast informed h
  obtain ⟨k, l, next, moves, taken, nodes, _⟩ := step_cases h
  by_cases same : i = k
  · subst same
    rw [nodes, Function.update_self] at member
    rcases (informed.healthy i).mem_flight_origin taken member with old | posts
    · exact informed.heard i tx old
    · rcases Node.posted_submission posts with ⟨tx', _, isAdd⟩ | ⟨event, isGossip, submits⟩
      · cases isAdd
      · rw [isGossip] at moves
        obtain ⟨delivery, _, _, _, _, _, _, found⟩ :=
          move_gossip gossips informed.healthy moves submits
        exact ⟨_, List.mem_of_getElem? found⟩
  · rw [nodes, Function.update_of_ne same] at member
    exact informed.heard i tx member

/-- A hash enters a pool with the result of a local submission, which is then
    broadcast, or with that of a broadcast. -/
theorem Informed.known_step [DecidableEq ι] (informed : c.Informed config check)
    (gossips : label.Gossips check) (h : step config c label = some c') (i : ι) (hash : TxHash)
    (member : hash ∈ (c'.nodes i).pool.state.txHashes) :
    ∃ j tx, batchOf tx ∈ (c'.nodes j).broadcasts ∧ validHash check tx = some hash := by
  have old : hash ∈ (c.nodes i).pool.state.txHashes →
      ∃ j tx, batchOf tx ∈ (c'.nodes j).broadcasts ∧ validHash check tx = some hash := by
    intro present
    obtain ⟨j, tx, made, valid⟩ := informed.known i hash present
    exact ⟨j, tx, (grows informed.healthy h j).2.subset made, valid⟩
  have heard : ∀ tx, (∃ j, batchOf tx ∈ (c.nodes j).broadcasts) →
      ∃ j, batchOf tx ∈ (c'.nodes j).broadcasts := fun _ => still_broadcast informed h
  obtain ⟨k, l, next, moves, taken, nodes, _⟩ := step_cases h
  by_cases same : i = k
  · subst same
    have healthy := informed.healthy i
    rw [nodes, Function.update_self, healthy.txHashes_step taken] at member
    rcases member with present | ⟨tx, enters⟩
    · exact old present
    · obtain ⟨valid, reply, checking, made⟩ :=
        healthy.incoming_cases (move_keeps gossips moves) enters
      cases reply with
      | none =>
          obtain ⟨j, made⟩ := heard tx (informed.heard i tx (List.mem_append_right _ checking))
          exact ⟨j, tx, made, valid⟩
      | some port =>
          refine ⟨i, tx, ?_, valid⟩
          rw [nodes, Function.update_self, healthy.broadcasts_step taken, made]
          simp
  · rw [nodes, Function.update_of_ne same] at member
    exact old member

/-- What a node broadcasts is in its own pool. -/
theorem Informed.held_step [DecidableEq ι] (informed : c.Informed config check)
    (gossips : label.Gossips check) (h : step config c label = some c') (i : ι) (tx : RawTx)
    (hash : TxHash) (made : batchOf tx ∈ (c'.nodes i).broadcasts)
    (valid : validHash check tx = some hash) : hash ∈ (c'.nodes i).pool.state.txHashes := by
  have old : batchOf tx ∈ (c.nodes i).broadcasts → hash ∈ (c'.nodes i).pool.state.txHashes :=
    fun made => (grows informed.healthy h i).1 hash (informed.held i tx hash made valid)
  obtain ⟨k, l, next, moves, taken, nodes, _⟩ := step_cases h
  by_cases same : i = k
  · subst same
    have healthy := informed.healthy i
    rw [nodes, Function.update_self, healthy.broadcasts_step taken] at made
    rcases List.mem_append.mp made with before | new
    · exact old before
    · obtain ⟨hash', tx', enters, isBatch⟩ := Node.Healthy.gossiped_incoming new
      obtain rfl := batchOf_injective isBatch
      obtain ⟨valid', _⟩ := healthy.incoming_cases (move_keeps gossips moves) enters
      obtain rfl := Option.some.inj (valid.symm.trans valid')
      rw [nodes, Function.update_self]
      exact (healthy.txHashes_step taken hash).mpr (.inr ⟨tx, enters⟩)
  · rw [nodes, Function.update_of_ne same] at made
    exact old made

theorem Informed.step [DecidableEq ι] (informed : c.Informed config check)
    (gossips : label.Gossips check) (h : Cluster.step config c label = some c') :
    c'.Informed config check where
  healthy := healthy_step gossips informed.healthy h
  heard := informed.heard_step gossips h
  known := informed.known_step gossips h
  held := informed.held_step gossips h

end Growth

/-! ## Room for everything that was submitted -/

/-- The hashes of the valid transactions that were submitted at any node. -/
def submitted [Fintype ι] (check : RawTx → AppResult) (c : Cluster ι) : Finset TxHash :=
  Finset.univ.biUnion (fun i => ((c.nodes i).asked.filterMap (validHash check)).toFinset)

theorem mem_submitted [Fintype ι] {check : RawTx → AppResult} {c : Cluster ι} {hash : TxHash} :
    hash ∈ c.submitted check ↔ ∃ i, ∃ tx ∈ (c.nodes i).asked, validHash check tx = some hash := by
  simp [submitted]

section Room

variable {config : MempoolConfig} {check : RawTx → AppResult} {c c' : Cluster ι} {label : Label ι}

theorem Informed.pool_subset [Fintype ι] (informed : c.Informed config check) {i : ι}
    {hash : TxHash} (present : hash ∈ (c.nodes i).pool.state.txHashes) :
    hash ∈ c.submitted check := by
  obtain ⟨j, tx, made, valid⟩ := informed.known i hash present
  obtain ⟨tx', asked, isBatch⟩ := (informed.healthy j).single.exists_of_broadcast made
  obtain rfl := batchOf_injective isBatch
  exact mem_submitted.mpr ⟨j, tx, asked, valid⟩

theorem Informed.keys_card (informed : c.Informed config check) (i : ι) :
    (c.nodes i).pool.state.txHashes.keys.toFinset.card = (c.nodes i).pool.state.txs.length := by
  obtain ⟨queue, sound⟩ := (informed.healthy i).sound
  have keys : (c.nodes i).pool.state.txHashes.keys.toFinset = (queue.map Prod.fst).toFinset := by
    ext hash
    rw [List.mem_toFinset, List.mem_toFinset, ← sound.represents.mem_iff, AList.mem_keys]
  rw [keys, List.toFinset_card_of_nodup sound.represents.keys_nodup, List.length_map,
    sound.represents.length_eq]

/-- A full pool holds everything that was submitted. -/
theorem Informed.full_holds_all [Fintype ι] (informed : c.Informed config check)
    (bounded : (c.submitted check).card ≤ config.maxPoolSize) {i : ι}
    (full : config.maxPoolSize ≤ (c.nodes i).pool.state.txs.length) {hash : TxHash}
    (isSubmitted : hash ∈ c.submitted check) : hash ∈ (c.nodes i).pool.state.txHashes := by
  have inside : (c.nodes i).pool.state.txHashes.keys.toFinset ⊆ c.submitted check := by
    intro other member
    exact informed.pool_subset (AList.mem_keys.mpr (List.mem_toFinset.mp member))
  have size := informed.keys_card i
  have all := Finset.eq_of_subset_of_card_le inside (by omega)
  rw [← all] at isSubmitted
  exact AList.mem_keys.mpr (List.mem_toFinset.mp isSubmitted)

/-- Submitted and delivered transactions are in the pool or on their way. -/
structure Served (check : RawTx → AppResult) (c : Cluster ι) : Prop where
  kept : ∀ i, ∀ tx ∈ (c.nodes i).asked, ∀ hash, validHash check tx = some hash →
    (c.nodes i).Settled tx hash
  arrived : ∀ d ∈ c.delivered, ∃ tx, (c.nodes d.origin).broadcasts[d.index]? = some (batchOf tx) ∧
    ∀ hash, validHash check tx = some hash → (c.nodes d.target).Settled tx hash

theorem served_start (check : RawTx → AppResult) :
    (start OutputPort.unbounded : Cluster ι).Served check :=
  ⟨by simp [start, Node.start], by simp [start]⟩

/-- The submissions of a node grow only by its own `Add`s. -/
theorem asked_step [DecidableEq ι] (h : step config c label = some c') (i : ι) (tx : RawTx) :
    tx ∈ (c'.nodes i).asked ↔ tx ∈ (c.nodes i).asked ∨ c.move label = some (i, .add tx) := by
  obtain ⟨k, l, next, moves, taken, nodes, _⟩ := step_cases h
  rw [nodes, moves, Option.some.injEq, Prod.mk.injEq]
  by_cases same : i = k
  · subst same
    rw [Function.update_self]
    rcases Node.handle_or_idle l with ⟨around, rfl⟩ | idle
    · obtain ⟨_, _, _, _, _, rfl⟩ := Node.handle_cases taken
      simp
    · rw [(Node.frame_step idle taken).asked]
      cases l <;> simp [eq_comm]
  · rw [Function.update_of_ne same]
    simp [Ne.symm same]

theorem submitted_step [DecidableEq ι] [Fintype ι] (h : step config c label = some c') :
    c.submitted check ⊆ c'.submitted check := by
  intro hash member
  obtain ⟨i, tx, asked, valid⟩ := mem_submitted.mp member
  exact mem_submitted.mpr ⟨i, tx, (asked_step h i tx).mpr (.inl asked), valid⟩

/-- What is settled at a node stays settled, whichever node moves. -/
theorem settled_step [DecidableEq ι] [Fintype ι] (informed : c.Informed config check)
    (bounded : (c.submitted check).card ≤ config.maxPoolSize) (h : step config c label = some c')
    {i : ι} {tx : RawTx} {hash : TxHash} (valid : validHash check tx = some hash)
    (isSubmitted : hash ∈ c.submitted check) (settled : (c.nodes i).Settled tx hash) :
    (c'.nodes i).Settled tx hash := by
  obtain ⟨k, l, next, _, taken, nodes, _⟩ := step_cases h
  rw [nodes]
  by_cases same : i = k
  · subst same
    rw [Function.update_self]
    exact settled.step (informed.healthy i) valid
      (fun full => informed.full_holds_all bounded full isSubmitted) taken
  · rw [Function.update_of_ne same]
    exact settled

/-- A submission that a step posts is on its way afterwards. -/
theorem settled_of_posted (informed : c.Informed config check) {i : ι}
    {l : MalachiteMempool.Label} {next : Node}
    (taken : Node.step config (c.nodes i) l = some next) {x : Check} {hash : TxHash}
    (posts : x ∈ ((c.nodes i).posted l).filterMap Msg.submission) : next.Settled x.1 hash := by
  rcases (informed.healthy i).posted_in_flight taken posts with still | gone
  · exact .inr ⟨x.2, still⟩
  · rcases Node.posted_submission posts with ⟨_, rfl, _⟩ | ⟨_, rfl, _⟩ <;>
      rcases gone with back | away
    · cases back
    · cases away
    · cases back
    · cases away

theorem Served.kept_step [DecidableEq ι] [Fintype ι] (served : c.Served check)
    (informed : c.Informed config check) (bounded : (c.submitted check).card ≤ config.maxPoolSize)
    (h : step config c label = some c') (i : ι) (tx : RawTx) (member : tx ∈ (c'.nodes i).asked)
    (hash : TxHash) (valid : validHash check tx = some hash) : (c'.nodes i).Settled tx hash := by
  rcases (asked_step h i tx).mp member with old | added
  · exact settled_step informed bounded h valid (mem_submitted.mpr ⟨i, tx, old, valid⟩)
      (served.kept i tx old hash valid)
  · obtain ⟨k, l, next, moves, taken, nodes, _⟩ := step_cases h
    obtain ⟨rfl, rfl⟩ := Prod.mk.inj (Option.some.inj (moves.symm.trans added))
    rw [nodes, Function.update_self]
    exact settled_of_posted informed taken (x := (tx, some (c.nodes k).asked.length))
      (by simp [Node.posted, Msg.submission])

theorem Served.arrived_step [DecidableEq ι] [Fintype ι] (served : c.Served check)
    (informed : c.Informed config check) (bounded : (c.submitted check).card ≤ config.maxPoolSize)
    (h : step config c label = some c') (d : Delivery ι) (member : d ∈ c'.delivered) :
    ∃ tx, (c'.nodes d.origin).broadcasts[d.index]? = some (batchOf tx) ∧
      ∀ hash, validHash check tx = some hash → (c'.nodes d.target).Settled tx hash := by
  have growth := (grows informed.healthy h d.origin).2
  have still : ∀ {batch}, (c.nodes d.origin).broadcasts[d.index]? = some batch →
      (c'.nodes d.origin).broadcasts[d.index]? = some batch := by
    intro batch found
    obtain ⟨rest, grown⟩ := growth
    rw [← grown, List.getElem?_append_left (List.getElem?_eq_some_iff.mp found).1, found]
  obtain ⟨k, l, next, moves, taken, nodes, delivered⟩ := step_cases h
  rw [delivered] at member
  rcases List.mem_append.mp member with old | new
  · obtain ⟨tx, found, settled⟩ := served.arrived d old
    refine ⟨tx, still found, fun hash valid => ?_⟩
    obtain ⟨tx', asked, isBatch⟩ := (informed.healthy d.origin).single.exists_of_broadcast
      (List.mem_of_getElem? found)
    obtain rfl := batchOf_injective isBatch
    exact settled_step informed bounded h valid (mem_submitted.mpr ⟨_, tx, asked, valid⟩)
      (settled hash valid)
  · cases label with
    | on node label => cases new
    | deliver delivery peer id =>
        obtain rfl := Option.some.inj (Option.mem_toList.mp new)
        simp only [move] at moves
        split at moves
        · cases moves
        · obtain ⟨batch, found, same⟩ := Option.map_eq_some_iff.mp moves
          obtain ⟨rfl, rfl⟩ := Prod.mk.inj same
          obtain ⟨tx, _, rfl⟩ := (informed.healthy delivery.origin).single.exists_of_broadcast
            (List.mem_of_getElem? found)
          refine ⟨tx, still found, fun hash _ => ?_⟩
          rw [nodes, Function.update_self]
          exact settled_of_posted informed taken (x := (tx, none))
            (by simp [Node.posted, Msg.submission, arrival, batchOf, RawTx.toVec])

theorem Served.step [DecidableEq ι] [Fintype ι] (served : c.Served check)
    (informed : c.Informed config check) (bounded : (c.submitted check).card ≤ config.maxPoolSize)
    (h : step config c label = some c') : c'.Served check :=
  ⟨served.kept_step informed bounded h, served.arrived_step informed bounded h⟩

/-- The bound on the whole run bounds every earlier state of it. -/
def Converging [Fintype ι] (config : MempoolConfig) (check : RawTx → AppResult) (c : Cluster ι) :
    Prop :=
  c.Informed config check ∧
    ((c.submitted check).card ≤ config.maxPoolSize → c.Served check)

theorem Converging.step [DecidableEq ι] [Fintype ι] (gossips : label.Gossips check)
    (converging : c.Converging config check) (h : Cluster.step config c label = some c') :
    c'.Converging config check := by
  obtain ⟨informed, served⟩ := converging
  refine ⟨informed.step gossips h, fun bounded => ?_⟩
  have earlier : (c.submitted check).card ≤ config.maxPoolSize :=
    (Finset.card_le_card (submitted_step h)).trans bounded
  exact (served earlier).step informed earlier h

theorem run_converging [DecidableEq ι] [Fintype ι] {labels : List (Label ι)}
    (gossips : ∀ label ∈ labels, label.Gossips check)
    (ran : (system config).run (start OutputPort.unbounded) labels = some c) :
    c.Converging config check :=
  (system config).run_invariant (fun _ _ _ => Converging.step) gossips
    ⟨informed_start config check, fun _ => served_start check⟩ ran

end Room

/-! ## Quiescence -/

/-- Nothing is in flight: every mailbox and output port is empty, and every
    broadcast has reached every other node. -/
structure Quiescent (c : Cluster ι) : Prop where
  mailboxes : ∀ i, (c.nodes i).mailbox = []
  apps : ∀ i, ∀ box ∈ (c.nodes i).apps, box = []
  ports : ∀ i, (c.nodes i).port.waiting = []
  delivered : ∀ origin target, origin ≠ target → ∀ index,
    index < (c.nodes origin).broadcasts.length → ⟨origin, index, target⟩ ∈ c.delivered

section Quiescent

variable {config : MempoolConfig} {check : RawTx → AppResult} {c : Cluster ι}

theorem Quiescent.flight_eq_nil (quiescent : c.Quiescent) (i : ι) : (c.nodes i).flight = [] := by
  have apps : (c.nodes i).apps.flatMap (fun box => box.filterMap Host.AppMsg.check) = [] := by
    rw [List.flatMap_eq_nil_iff]
    intro box member
    rw [quiescent.apps i box member]
    rfl
  rw [Node.flight, Node.checks, quiescent.mailboxes, quiescent.ports, apps]
  rfl

theorem Quiescent.present (quiescent : c.Quiescent) {i : ι} {tx : RawTx} {hash : TxHash}
    (settled : (c.nodes i).Settled tx hash) : hash ∈ (c.nodes i).pool.state.txHashes := by
  rcases settled with present | ⟨reply, inFlight⟩
  · exact present
  · rw [quiescent.flight_eq_nil] at inFlight
    cases inFlight

/-- A submitted hash is in the pool of its node, so some node has broadcast it,
    and everybody else has received that broadcast. -/
theorem Quiescent.holds_all [Fintype ι] (quiescent : c.Quiescent)
    (informed : c.Informed config check) (served : c.Served check) {hash : TxHash}
    (isSubmitted : hash ∈ c.submitted check) (i : ι) :
    hash ∈ (c.nodes i).pool.state.txHashes := by
  obtain ⟨j, tx, asked, valid⟩ := mem_submitted.mp isSubmitted
  have there := quiescent.present (served.kept j tx asked hash valid)
  obtain ⟨origin, tx', made, valid'⟩ := informed.known j hash there
  by_cases same : origin = i
  · subst same
    exact informed.held origin tx' hash made valid'
  · obtain ⟨index, found⟩ := List.mem_iff_getElem?.mp made
    have inside := (List.getElem?_eq_some_iff.mp found).1
    have reached := quiescent.delivered origin i same index inside
    obtain ⟨tx'', found', settled⟩ := served.arrived _ reached
    obtain rfl := batchOf_injective (Option.some.inj (found.symm.trans found'))
    exact quiescent.present (settled hash valid')

end Quiescent

/-- Every queued transaction is valid under the hash it is indexed by. -/
theorem queued_valid {config : MempoolConfig} {check : RawTx → AppResult} {n : Node}
    (healthy : n.Healthy config check) {queue : List (TxHash × RawTx)} (sound : Sound n.pool queue)
    {pair : TxHash × RawTx} (member : pair ∈ queue) :
    validHash check pair.2 = some pair.1 := by
  obtain ⟨earlier, r, later, split, inserted, _⟩ := sound.recent pair member
  have inLog : r ∈ n.pool.log := by simp [split]
  rw [(healthy.single.faithful r inLog).2.inserted_eq] at inserted
  have received : r.msg ∈ n.received := List.mem_append_left _ (List.mem_map_of_mem inLog)
  cases msg : r.msg with
  | subscribe | networkEvent | add | take | remove =>
      rw [msg] at inserted
      cases inserted
  | checkTxResult tx result reply =>
      rw [msg] at inserted received
      obtain ⟨outcome, valid, accepted, same⟩ := newcomer_eq_some_iff.mp inserted
      obtain ⟨isHash, isTx⟩ := Prod.mk.inj same
      obtain ⟨rfl, _⟩ := verdict_eq_ok.mp accepted
      rw [isHash, isTx]
      simp [validHash, ← healthy.checked tx _ reply received, valid]

/-- Each indexed hash has exactly one transaction in the queue. -/
theorem countP_valid {config : MempoolConfig} {check : RawTx → AppResult} {n : Node}
    (healthy : n.Healthy config check) {hash : TxHash} (present : hash ∈ n.pool.state.txHashes) :
    n.pool.state.txs.countP (fun tx => decide (validHash check tx = some hash)) = 1 := by
  obtain ⟨queue, sound⟩ := healthy.sound
  have rep := sound.represents
  calc
    n.pool.state.txs.countP (fun tx => decide (validHash check tx = some hash))
      = queue.countP (fun pair => decide (validHash check pair.2 = some hash)) := by
        rw [rep.items_eq, List.countP_map]
        rfl
    _ = queue.countP (fun pair => pair.1 == hash) := by
        apply List.countP_congr
        intro pair member
        simp [queued_valid healthy sound member]
    _ = (queue.map Prod.fst).count hash := by
        rw [List.count, List.countP_map]
        rfl
    _ = 1 := by
        rw [rep.keys_nodup.count, if_pos (rep.mem_iff.mp present)]

/-- When nothing is in flight, every pool holds exactly the hashes of the valid
    transactions that were submitted anywhere, each once. -/
theorem pools_converge [DecidableEq ι] [Fintype ι] (config : MempoolConfig)
    (check : RawTx → AppResult) (labels : List (Label ι)) (c : Cluster ι)
    (gossips : ∀ label ∈ labels, label.Gossips check)
    (ran : (system config).run (start OutputPort.unbounded) labels = some c)
    (bounded : (c.submitted check).card ≤ config.maxPoolSize) (quiescent : c.Quiescent) :
    ∀ i, (c.nodes i).pool.state.txHashes.keys.toFinset = c.submitted check ∧
      (c.nodes i).pool.state.txs.length = (c.submitted check).card ∧
      ∀ hash ∈ c.submitted check, (c.nodes i).pool.state.txs.countP
        (fun tx => decide (validHash check tx = some hash)) = 1 := by
  obtain ⟨informed, served⟩ := run_converging gossips ran
  intro i
  have keys : (c.nodes i).pool.state.txHashes.keys.toFinset = c.submitted check := by
    ext hash
    rw [List.mem_toFinset, AList.mem_keys.symm]
    exact ⟨informed.pool_subset, fun isSubmitted =>
      quiescent.holds_all informed (served bounded) isSubmitted i⟩
  refine ⟨keys, ?_, ?_⟩
  · rw [← keys, informed.keys_card]
  · intro hash isSubmitted
    exact countP_valid (informed.healthy i)
      (quiescent.holds_all informed (served bounded) isSubmitted i)

theorem spread_converges :
    ∃ c : Cluster (Fin 2),
      (system MempoolConfig.default).run (start OutputPort.unbounded) spread = some c ∧
      ∀ i, (c.nodes i).pool.state.txHashes.keys.toFinset = c.submitted Host.checkTx := by
  obtain ⟨c, ran⟩ : ∃ c, (system MempoolConfig.default).run (start OutputPort.unbounded) spread =
    some c := ⟨_, rfl⟩
  have seen : ∀ {β : Type} (f : Cluster (Fin 2) → β) (v : β),
      ((system MempoolConfig.default).run (start OutputPort.unbounded) spread).map f = some v →
        f c = v := by
    intro β f v shows
    rw [ran] at shows
    exact Option.some.inj shows
  have apps : ∀ i, (c.nodes i).apps = [[]]
    | 0 => seen (fun c => (c.nodes 0).apps) [[]] rfl
    | 1 => seen (fun c => (c.nodes 1).apps) [[]] rfl
  refine ⟨c, ran, fun i => (pools_converge MempoolConfig.default Host.checkTx spread c ?_ ran ?_
    ⟨?_, ?_, ?_, ?_⟩ i).1⟩
  · simp [spread, Node.roundTrip, Label.Gossips, Label.Keeps, Surroundings.calm]
  · have one := seen (fun c => (c.submitted Host.checkTx).card) 1 rfl
    rw [one]
    decide
  · exact fun
      | 0 => seen (fun c => (c.nodes 0).mailbox) [] rfl
      | 1 => seen (fun c => (c.nodes 1).mailbox) [] rfl
  · intro j box member
    rw [apps j] at member
    exact List.mem_singleton.mp member
  · exact fun
      | 0 => seen (fun c => (c.nodes 0).port.waiting) [] rfl
      | 1 => seen (fun c => (c.nodes 1).port.waiting) [] rfl
  · intro origin target different index inside
    have lengths : ∀ i, (c.nodes i).broadcasts.length = if i = 0 then 1 else 0
      | 0 => seen (fun c => (c.nodes 0).broadcasts.length) 1 rfl
      | 1 => seen (fun c => (c.nodes 1).broadcasts.length) 0 rfl
    rw [seen (fun c => c.delivered) [⟨0, 0, 1⟩] rfl]
    rw [lengths] at inside
    grind

end Cluster

end MalachiteMempool
