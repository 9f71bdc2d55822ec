import MalachiteMempool.Node.Gossip
import MalachiteMempool.Node.Replies
import Mathlib.Algebra.BigOperators.Group.Finset.Basic
import Mathlib.Algebra.Order.BigOperators.Group.Finset

/-! # A network of nodes

Any number of nodes, each with one app, and a gossip layer between them.  The
layer may deliver any broadcast a node has made to any other node, in any order
and as often as it likes.  A cluster remembers which deliveries have happened.

Whatever is delivered, nodes do not answer gossip with gossip: every broadcast
has its own local `Add` at the node that makes it.
-/

namespace MalachiteMempool

/-- The broadcast at this position of the origin's broadcasts reached a node. -/
structure Delivery (ι : Type*) where
  origin : ι
  index : Nat
  target : ι
  deriving DecidableEq

structure Cluster (ι : Type*) where
  nodes : ι → Node
  delivered : List (Delivery ι)

namespace Cluster

inductive Label (ι : Type*) where
  /-- One step of one node. -/
  | on (node : ι) (label : MalachiteMempool.Label)
  /-- The gossip layer delivers a broadcast, under some peer and message id. -/
  | deliver (delivery : Delivery ι) (peer : Network.PeerId) (id : Network.MessageId)

variable {ι : Type*}

/-- Every node starts empty, with this output port and one app. -/
def start (port : OutputPort) : Cluster ι where
  nodes := fun _ => Node.start port 1
  delivered := []

/-- The event a delivered broadcast becomes. -/
def arrival (peer : Network.PeerId) (id : Network.MessageId) (batch : MempoolTransactionBatch) :
    Network.Event :=
  .message .mempool peer id (.transactionBatch batch)

def Label.delivery : Label ι → Option (Delivery ι)
  | .on _ _ => none
  | .deliver delivery _ _ => some delivery

variable [DecidableEq ι]

/-- The step of a single node that a label stands for. -/
def move (c : Cluster ι) : Label ι → Option (ι × MalachiteMempool.Label)
  | .on node label => some (node, label)
  | .deliver delivery peer id =>
      if delivery.origin = delivery.target then none
      else (c.nodes delivery.origin).broadcasts[delivery.index]?.map (fun batch =>
        (delivery.target, .gossip (arrival peer id batch)))

def step (config : MempoolConfig) (c : Cluster ι) (label : Label ι) : Option (Cluster ι) :=
  (c.move label).bind (fun move =>
    (Node.step config (c.nodes move.1) move.2).map (fun next =>
      { nodes := Function.update c.nodes move.1 next
        delivered := c.delivered ++ label.delivery.toList }))

def system (config : MempoolConfig) : Transition.System (Cluster ι) (Label ι) where
  step := step config

/-- Every step of a cluster is a step of one of its nodes. -/
theorem step_cases {config : MempoolConfig} {c c' : Cluster ι} {label : Label ι}
    (h : step config c label = some c') :
    ∃ i l next, c.move label = some (i, l) ∧ Node.step config (c.nodes i) l = some next ∧
      c'.nodes = Function.update c.nodes i next ∧
      c'.delivered = c.delivered ++ label.delivery.toList := by
  obtain ⟨⟨i, l⟩, moves, h⟩ := Option.bind_eq_some_iff.mp h
  obtain ⟨next, taken, rfl⟩ := Option.map_eq_some_iff.mp h
  exact ⟨i, l, next, moves, taken, rfl, rfl⟩

/-- What every step of a node keeps holds of all nodes along a run. -/
theorem nodes_step {config : MempoolConfig} {c c' : Cluster ι} {label : Label ι}
    {inv : Node → Prop}
    (preserved : ∀ i l n n', c.move label = some (i, l) → inv n → Node.step config n l = some n' →
      inv n')
    (holds : ∀ i, inv (c.nodes i)) (h : step config c label = some c') : ∀ i, inv (c'.nodes i) := by
  obtain ⟨i, l, next, moves, taken, nodes, _⟩ := step_cases h
  intro j
  rw [nodes]
  by_cases same : j = i
  · subst same
    rw [Function.update_self]
    exact preserved j l _ _ moves (holds j) taken
  · rw [Function.update_of_ne same]
    exact holds j

theorem run_single {config : MempoolConfig} {port : OutputPort} {labels : List (Label ι)}
    {c : Cluster ι} (ran : (system config).run (start port) labels = some c) :
    ∀ i, (c.nodes i).Single config := by
  have preserved : ∀ s a next, (∀ i, (s.nodes i).Single config) →
      (system config : Transition.System (Cluster ι) (Label ι)).step s a = some next →
        ∀ i, (next.nodes i).Single config :=
    fun _ _ _ holds h => nodes_step (fun _ _ _ _ _ single taken => single.step taken) holds h
  exact (system config).run_induction preserved (fun _ => Node.single_start config port) ran

/-- Every broadcast of every node is traced to an `Add` of its own that the same
    node has handled and whose result inserted the transaction; so there are no
    more broadcasts than local submissions. -/
theorem broadcasts_trace_to_adds [Fintype ι] (config : MempoolConfig) (port : OutputPort)
    (labels : List (Label ι)) (c : Cluster ι)
    (ran : (system config).run (start port) labels = some c) :
    (∀ i, ∃ sources : List (PortId × RawTx), (sources.map Prod.fst).Nodup ∧
      (c.nodes i).broadcasts = sources.map (fun source => batchOf source.2) ∧
      ∀ source ∈ sources, (∃ r ∈ (c.nodes i).pool.log, r.msg = .add source.2 source.1) ∧
        ∃ r ∈ (c.nodes i).pool.log, ∃ result hash,
          r.msg = .checkTxResult source.2 result (some source.1) ∧
          r.broadcasts = [batchOf source.2] ∧ r.inserted = some (hash, source.2)) ∧
      (∀ i, ∀ r ∈ (c.nodes i).pool.log, r.broadcasts ≠ [] →
        ∃ tx result reply, r.msg = .checkTxResult tx result (some reply)) ∧
      ∑ i, (c.nodes i).broadcasts.length ≤ ∑ i, (c.nodes i).addsHandled.length ∧
      ∑ i, (c.nodes i).addsHandled.length ≤ ∑ i, (c.nodes i).asked.length := by
  have single := run_single ran
  refine ⟨?_, ?_, ?_, ?_⟩
  · intro i
    refine ⟨(c.nodes i).sources, (single i).sources_nodup, (single i).broadcasts_eq, ?_⟩
    intro source member
    exact (single i).mem_sources member
  · intro i r member made
    rcases ((single i).faithful r member).broadcast_cases with silent | ⟨tx, result, reply, msg, _⟩
    · exact absurd silent made
    · exact ⟨tx, result, reply, msg⟩
  · exact Finset.sum_le_sum (fun i _ => (single i).broadcasts_le_adds.1)
  · exact Finset.sum_le_sum (fun i _ => (single i).broadcasts_le_adds.2)

/-- A submission at one of two nodes, and its gossip at the other. -/
def spread : List (Label (Fin 2)) :=
  Node.roundTrip.map (.on 0) ++
    .deliver ⟨0, 0, 1⟩ ⟨[]⟩ ⟨[]⟩ ::
      [.handle .calm, .forward 0, .app 0 Host.checkTx, .handle .calm].map (.on 1)

theorem spread_broadcasts_once :
    ∃ c : Cluster (Fin 2),
      (system MempoolConfig.default).run (start OutputPort.default) spread = some c ∧
      (c.nodes 0).broadcasts.length = 1 ∧ (c.nodes 1).broadcasts.length = 0 ∧
      ∑ i, (c.nodes i).broadcasts.length ≤ ∑ i, (c.nodes i).addsHandled.length :=
  ⟨_, rfl, rfl, rfl,
    (broadcasts_trace_to_adds MempoolConfig.default OutputPort.default spread _ rfl).2.2.1⟩

end Cluster

end MalachiteMempool
