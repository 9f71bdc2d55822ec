import MalachiteMempool.Cluster.Stack
import MalachiteMempool.Node.Progress
import Mathlib.Algebra.BigOperators.Ring.Finset

/-! # The work of a network of nodes

A node gossips what its own clients submit and nothing else, so gossip does not
feed on itself: all steps of all nodes together are paid for by the messages of
the clients and by four steps for each delivery.  As gossipsub delivers nothing
twice, each submission is delivered at most once to every other node.
-/

namespace MalachiteMempool

namespace Cluster

variable {ι : Type*}

namespace Label

/-- A step that a node takes by itself. -/
def internal : Label ι → Bool
  | .on _ label => label.internal
  | .deliver _ _ _ => false

/-- The steps that a message from outside the network causes. -/
def effort : Label ι → Nat
  | .on _ label => label.effort 1
  | .deliver _ _ _ => 0

end Label

variable [DecidableEq ι]

/-- A delivery is of a broadcast that was made, to another node. -/
def Deliverable (c : Cluster ι) (d : Delivery ι) : Prop :=
  d.origin ≠ d.target ∧ d.index < (c.nodes d.origin).broadcasts.length

theorem move_internal {c : Cluster ι} {label : Label ι} {i : ι} {l : MalachiteMempool.Label}
    (moves : c.move label = some (i, l)) :
    l.internal = label.internal ∧ l.effort 1 ≤ label.effort + 4 * label.delivery.toList.length := by
  cases label with
  | on node inner =>
      obtain ⟨rfl, rfl⟩ := Prod.mk.inj (Option.some.inj moves)
      exact ⟨rfl, Nat.le_refl _⟩
  | deliver d peer id =>
      simp only [move] at moves
      split at moves
      · cases moves
      · obtain ⟨batch, _, same⟩ := Option.map_eq_some_iff.mp moves
        obtain ⟨rfl, rfl⟩ := Prod.mk.inj same
        exact ⟨rfl, Nat.le_refl _⟩

theorem deliverable_step {config : MempoolConfig} {c c' : Cluster ι} {label : Label ι}
    (deliverable : ∀ d ∈ c.delivered, c.Deliverable d) (h : step config c label = some c') :
    ∀ d ∈ c'.delivered, c'.Deliverable d := by
  obtain ⟨i, l, next, moves, taken, nodes, delivered⟩ := step_cases h
  have longer : ∀ origin, (c.nodes origin).broadcasts.length ≤
      (c'.nodes origin).broadcasts.length := by
    intro origin
    rw [nodes]
    by_cases same : origin = i
    · subst same
      rw [Function.update_self, Node.broadcasts_grow taken, List.length_append]
      exact Nat.le_add_right _ _
    · rw [Function.update_of_ne same]
  intro d member
  rw [delivered] at member
  have before : c.Deliverable d := by
    rcases List.mem_append.mp member with old | new
    · exact deliverable d old
    · cases label with
      | on node inner => cases new
      | deliver d' peer id =>
          obtain rfl := List.mem_singleton.mp new
          simp only [move] at moves
          split at moves
          · cases moves
          · rename_i different
            obtain ⟨batch, made, _⟩ := Option.map_eq_some_iff.mp moves
            exact ⟨different, (List.getElem?_eq_some_iff.mp made).1⟩
  exact ⟨before.1, Nat.lt_of_lt_of_le before.2 (longer d.origin)⟩

/-- The deliveries of a run are those it remembers. -/
theorem run_delivered {config : MempoolConfig} {labels : List (Label ι)} {c c' : Cluster ι}
    (ran : (system config).run c labels = some c') :
    c'.delivered.length = c.delivered.length +
      (labels.map (fun label => label.delivery.toList.length)).sum := by
  induction labels generalizing c with
  | nil =>
      obtain rfl := Option.some.inj ran
      rfl
  | cons label rest ih =>
      obtain ⟨next, taken, ran⟩ := (system config).run_cons_eq_some.mp ran
      obtain ⟨_, _, _, _, _, _, delivered⟩ := step_cases taken
      rw [ih ran, delivered, List.length_append, List.map_cons, List.sum_cons, Nat.add_assoc]

variable [Fintype ι]

/-- The steps that everything in all nodes still takes. -/
def effort (c : Cluster ι) : Nat := ∑ i, (c.nodes i).effort 1

theorem effort_step {config : MempoolConfig} {c c' : Cluster ι} {label : Label ι}
    (single : ∀ i, (c.nodes i).Single config) (h : step config c label = some c') :
    c'.effort + label.internal.toNat ≤
      c.effort + (label.effort + 4 * label.delivery.toList.length) := by
  obtain ⟨i, l, next, moves, taken, nodes, _⟩ := step_cases h
  obtain ⟨sameSteps, causes⟩ := move_internal moves
  have paid := Node.effort_step (single i).wired taken
  have others : ∑ j ∈ Finset.univ.erase i, (c'.nodes j).effort 1 =
      ∑ j ∈ Finset.univ.erase i, (c.nodes j).effort 1 := by
    apply Finset.sum_congr rfl
    intro j member
    rw [nodes, Function.update_of_ne (Finset.ne_of_mem_erase member)]
  have now := Finset.add_sum_erase Finset.univ (fun j => (c'.nodes j).effort 1) (Finset.mem_univ i)
  have before :=
    Finset.add_sum_erase Finset.univ (fun j => (c.nodes j).effort 1) (Finset.mem_univ i)
  have atNode : (c'.nodes i).effort 1 = next.effort 1 := by rw [nodes, Function.update_self]
  unfold effort
  rw [sameSteps] at paid
  omega

/-- Without repetitions there are fewer deliveries than pairs of a broadcast and
    a node. -/
theorem delivered_length_le {c : Cluster ι} (once : c.delivered.Nodup)
    (deliverable : ∀ d ∈ c.delivered, c.Deliverable d) :
    c.delivered.length ≤ (Fintype.card ι - 1) * ∑ i, (c.nodes i).broadcasts.length := by
  let pairs (origin : ι) : Finset (Delivery ι) :=
    (Finset.range (c.nodes origin).broadcasts.length ×ˢ Finset.univ.erase origin).image
      (fun pair => ⟨origin, pair.1, pair.2⟩)
  have inside : c.delivered.toFinset ⊆ Finset.univ.biUnion pairs := by
    intro d member
    obtain ⟨different, made⟩ := deliverable d (List.mem_toFinset.mp member)
    apply Finset.mem_biUnion.mpr
    refine ⟨d.origin, Finset.mem_univ _, Finset.mem_image.mpr ⟨(d.index, d.target), ?_, rfl⟩⟩
    exact Finset.mem_product.mpr ⟨Finset.mem_range.mpr made,
      Finset.mem_erase.mpr ⟨different.symm, Finset.mem_univ _⟩⟩
  have few : ∀ origin, (pairs origin).card ≤
      (Fintype.card ι - 1) * (c.nodes origin).broadcasts.length := by
    intro origin
    calc
      (pairs origin).card ≤
          (Finset.range (c.nodes origin).broadcasts.length ×ˢ Finset.univ.erase origin).card :=
        Finset.card_image_le
      _ = (Fintype.card ι - 1) * (c.nodes origin).broadcasts.length := by
        rw [Finset.card_product, Finset.card_range, Finset.card_erase_of_mem (Finset.mem_univ _),
          Finset.card_univ, Nat.mul_comm]
  calc
    c.delivered.length = c.delivered.toFinset.card := (List.toFinset_card_of_nodup once).symm
    _ ≤ (Finset.univ.biUnion pairs).card := Finset.card_le_card inside
    _ ≤ ∑ origin, (pairs origin).card := Finset.card_biUnion_le
    _ ≤ ∑ origin, (Fintype.card ι - 1) * (c.nodes origin).broadcasts.length :=
      Finset.sum_le_sum (fun origin _ => few origin)
    _ = _ := (Finset.mul_sum _ _ _).symm

/-- If nothing is delivered twice, all nodes together take no more steps than
    their clients cause, and four for each `Add` and each other node. -/
theorem gossip_work_linear (config : MempoolConfig) (port : OutputPort) (labels : List (Label ι))
    (c : Cluster ι) (ran : (system config).run (start port) labels = some c)
    (once : c.delivered.Nodup) :
    labels.countP Label.internal + c.effort ≤
      (labels.map Label.effort).sum +
        4 * ((Fintype.card ι - 1) * ∑ i, (c.nodes i).asked.length) := by
  have preserved : ∀ (c : Cluster ι) (label : Label ι) (next : Cluster ι),
      (∀ i, (c.nodes i).Single config) → (system config).step c label = some next →
        (∀ i, (next.nodes i).Single config) ∧ next.effort + label.internal.toNat ≤
          c.effort + (label.effort + 4 * label.delivery.toList.length) :=
    fun _ _ _ single h => ⟨nodes_step (fun _ _ _ _ _ single taken => single.step taken) single h,
      effort_step single h⟩
  have initial : ∀ i : ι, ((start port).nodes i).Single config :=
    fun _ => Node.single_start config port
  have bounded := (system config).run_bounded _ _ preserved initial ran
  have fresh : (start port : Cluster ι).effort = 0 := by
    simp [effort, start, Node.effort, Node.start, Node.port, History.init, OutputPort.subscribed,
      receiverEffort]
  have stays : ∀ (c : Cluster ι) (label : Label ι) (next : Cluster ι),
      (∀ d ∈ c.delivered, c.Deliverable d) → (system config).step c label = some next →
        ∀ d ∈ next.delivered, next.Deliverable d :=
    fun _ _ _ => deliverable_step
  have deliverable := (system config).run_induction stays (by simp [start]) ran
  have few := delivered_length_le once deliverable
  have made : ∑ i, (c.nodes i).broadcasts.length ≤ ∑ i, (c.nodes i).asked.length := by
    apply Finset.sum_le_sum
    intro i _
    obtain ⟨handled, asked⟩ := ((run_single ran) i).broadcasts_le_adds
    exact Nat.le_trans handled asked
  have scaled := Nat.mul_le_mul_left (Fintype.card ι - 1) made
  have deliveries := run_delivered ran
  have split : (labels.map (fun label =>
      label.effort + 4 * label.delivery.toList.length)).sum =
      (labels.map Label.effort).sum +
        4 * (labels.map (fun label => label.delivery.toList.length)).sum := by
    rw [List.sum_map_add, List.sum_map_mul_left]
  have none_before : (start port : Cluster ι).delivered.length = 0 := rfl
  rw [Transition.sum_map_toNat, split, fresh] at bounded
  omega

theorem spread_work : ∃ c : Cluster (Fin 2),
    (system MempoolConfig.default).run (start OutputPort.default) spread = some c ∧
      spread.countP Label.internal + c.effort ≤
        (spread.map Label.effort).sum +
          4 * ((Fintype.card (Fin 2) - 1) * ∑ i, (c.nodes i).asked.length) := by
  refine ⟨_, rfl, ?_⟩
  apply gossip_work_linear MempoolConfig.default OutputPort.default spread _ rfl
  exact List.nodup_singleton _

end Cluster

end MalachiteMempool
