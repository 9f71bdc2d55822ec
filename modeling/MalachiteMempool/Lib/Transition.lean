import Mathlib.Algebra.Ring.Nat
import Mathlib.Data.List.Chain

/-! # Partial transition systems and their runs

A system is a step function that may refuse a label.  Runs are lists of labels,
so every scheduling decision and every choice of the environment is visible in
the run itself.

`Always` speaks about the states of a run, `Throughout` about the steps it
takes.  The exactness rule at the end relates the two: when one step keeps a
property precisely if that step meets a condition, a whole run keeps the
property precisely if all of its steps meet the condition.

One system refines another when each of its steps is matched by some steps of
the other, possibly none, that show the same to the outside.

An effort that every step pays its cost from bounds how long a run can be,
given what comes in meanwhile.

A log of the steps taken, each with the state before and after it, is `Linked`
when every step starts where the one before it stopped.
-/

namespace Transition

/-- A step function; `none` means that the label is not enabled. -/
structure System (State Label : Type*) where
  step : State → Label → Option State

namespace System

variable {State Label : Type*} (sys : System State Label)

/-- The state after a list of labels, provided each of them was enabled. -/
def run : State → List Label → Option State
  | s, [] => some s
  | s, a :: rest => (sys.step s a).bind (fun next => run next rest)

/-- Every state of the run is good, the first one included. -/
def Always (good : State → Prop) : State → List Label → Prop
  | s, [] => good s
  | s, a :: rest => good s ∧ ∀ next, sys.step s a = some next → Always good next rest

/-- Every step of the run meets a condition on the state it starts from. -/
def Throughout (meets : State → Label → Prop) : State → List Label → Prop
  | _, [] => True
  | s, a :: rest => ∀ next, sys.step s a = some next → meets s a ∧ Throughout meets next rest

theorem run_cons_eq_some {s final : State} {a : Label} {rest : List Label} :
    sys.run s (a :: rest) = some final ↔
      ∃ next, sys.step s a = some next ∧ sys.run next rest = some final := by
  simp only [run, Option.bind_eq_some_iff]

/-- The invariant rule.  Steps may be restricted to the labels of the run. -/
theorem run_invariant {inv : State → Prop} {allowed : Label → Prop}
    (preserved : ∀ s a next, allowed a → inv s → sys.step s a = some next → inv next)
    {s final : State} {labels : List Label} (labelsAllowed : ∀ a ∈ labels, allowed a)
    (initial : inv s) (ran : sys.run s labels = some final) : inv final := by
  induction labels generalizing s with
  | nil =>
      obtain rfl := Option.some.inj ran
      exact initial
  | cons a rest ih =>
      obtain ⟨next, taken, ran⟩ := sys.run_cons_eq_some.mp ran
      exact ih (fun b member => labelsAllowed b (List.mem_cons_of_mem a member))
        (preserved s a next (labelsAllowed a (by simp)) initial taken) ran

/-- The invariant rule for runs whose labels are not restricted. -/
theorem run_induction {inv : State → Prop}
    (preserved : ∀ s a next, inv s → sys.step s a = some next → inv next)
    {s final : State} {labels : List Label}
    (initial : inv s) (ran : sys.run s labels = some final) : inv final :=
  sys.run_invariant (fun s a next (_ : True) => preserved s a next) (fun _ _ => trivial) initial ran

/-- A property that one step keeps exactly when the step meets a condition is
    kept by a run exactly when all of its steps meet the condition. -/
theorem always_iff_throughout {inv good : State → Prop} {meets : State → Label → Prop}
    (preserved : ∀ s a next, inv s → sys.step s a = some next → inv next)
    (exact_step : ∀ s a next, inv s → good s → sys.step s a = some next → (good next ↔ meets s a))
    {s : State} (initial : inv s) (good_initial : good s) (labels : List Label) :
    sys.Always good s labels ↔ sys.Throughout meets s labels := by
  induction labels generalizing s with
  | nil => simp only [Always, Throughout, good_initial]
  | cons a rest ih =>
      constructor
      · rintro ⟨_, later⟩ next taken
        have good_next : good next := by
          cases rest with
          | nil => exact later next taken
          | cons b rest => exact (later next taken).1
        exact ⟨(exact_step s a next initial good_initial taken).mp good_next,
          (ih (preserved s a next initial taken) good_next).mp (later next taken)⟩
      · intro steps
        refine ⟨good_initial, fun next taken => ?_⟩
        obtain ⟨met, later⟩ := steps next taken
        have good_next := (exact_step s a next initial good_initial taken).mpr met
        exact (ih (preserved s a next initial taken) good_next).mpr later

/-- The sufficient half of the exactness rule, where the condition is only
    known to keep the property. -/
theorem always_of_throughout {inv : State → Prop} {meets : State → Label → Prop}
    (preserved : ∀ s a next, inv s → meets s a → sys.step s a = some next → inv next)
    {s : State} (initial : inv s) {labels : List Label} (steps : sys.Throughout meets s labels) :
    sys.Always inv s labels := by
  induction labels generalizing s with
  | nil => exact initial
  | cons a rest ih =>
      refine ⟨initial, fun next taken => ?_⟩
      obtain ⟨met, later⟩ := steps next taken
      exact ih (preserved s a next initial met taken) later

/-- The invariant rule for runs whose states are known to be good in another
    respect. -/
theorem always_under {inv known : State → Prop}
    (preserved : ∀ s a next, inv s → known next → sys.step s a = some next → inv next)
    {s : State} (initial : inv s) {labels : List Label} (always : sys.Always known s labels) :
    sys.Always inv s labels := by
  induction labels generalizing s with
  | nil => exact initial
  | cons a rest ih =>
      refine ⟨initial, fun next taken => ?_⟩
      have later := always.2 next taken
      have here : known next := by
        cases rest with
        | nil => exact later
        | cons b rest => exact later.1
      exact ih (preserved s a next initial here taken) later

theorem Always.imp {good better : State → Prop} (weaken : ∀ s, better s → good s)
    {s : State} {labels : List Label} (always : sys.Always better s labels) :
    sys.Always good s labels := by
  induction labels generalizing s with
  | nil => exact weaken s always
  | cons a rest ih => exact ⟨weaken s always.1, fun next taken => ih (always.2 next taken)⟩

theorem Always.last {good : State → Prop} {s final : State} {labels : List Label}
    (always : sys.Always good s labels) (ran : sys.run s labels = some final) : good final := by
  induction labels generalizing s with
  | nil =>
      obtain rfl := Option.some.inj ran
      exact always
  | cons a rest ih =>
      obtain ⟨next, taken, ran⟩ := sys.run_cons_eq_some.mp ran
      exact ih (always.2 next taken) ran

/-- A run is checked by running it. -/
instance decidableThroughout {meets : State → Label → Prop} [∀ s a, Decidable (meets s a)] :
    ∀ s labels, Decidable (sys.Throughout meets s labels)
  | _, [] => isTrue trivial
  | s, a :: rest =>
      match taken : sys.step s a with
      | none => isTrue (fun next stepped => by rw [taken] at stepped; cases stepped)
      | some next =>
          have : Decidable (sys.Throughout meets next rest) := decidableThroughout next rest
          decidable_of_iff (meets s a ∧ sys.Throughout meets next rest)
            ⟨fun holds next' stepped => by rw [taken] at stepped; cases stepped; exact holds,
              fun all => all next taken⟩

instance decidableAlways {good : State → Prop} [∀ s, Decidable (good s)] :
    ∀ s labels, Decidable (sys.Always good s labels)
  | s, [] => inferInstanceAs (Decidable (good s))
  | s, a :: rest =>
      match taken : sys.step s a with
      | none =>
          decidable_of_iff (good s)
            ⟨fun here => ⟨here, fun next stepped => by rw [taken] at stepped; cases stepped⟩,
              fun always => always.1⟩
      | some next =>
          have : Decidable (sys.Always good next rest) := decidableAlways next rest
          decidable_of_iff (good s ∧ sys.Always good next rest)
            ⟨fun holds => ⟨holds.1, fun next' stepped => by
                rw [taken] at stepped; cases stepped; exact holds.2⟩,
              fun always => ⟨always.1, always.2 next taken⟩⟩

/-- The collecting rule: as long as the system is active, each step adds to the
    output what its label stands for. -/
theorem run_collects {β : Type*} {active : State → Prop} {output : State → List β}
    {view : Label → Option β}
    (collects : ∀ s a next, sys.step s a = some next → active next →
      active s ∧ output next = output s ++ (view a).toList)
    {s final : State} {labels : List Label} (ran : sys.run s labels = some final)
    (isActive : active final) :
    active s ∧ output final = output s ++ labels.filterMap view := by
  induction labels generalizing s with
  | nil =>
      obtain rfl := Option.some.inj ran
      exact ⟨isActive, by simp⟩
  | cons a rest ih =>
      obtain ⟨next, taken, ran⟩ := sys.run_cons_eq_some.mp ran
      obtain ⟨nextActive, later⟩ := ih ran
      obtain ⟨wasActive, now⟩ := collects s a next taken nextActive
      refine ⟨wasActive, ?_⟩
      rw [later, now, List.append_assoc, List.filterMap_cons]
      cases view a <;> simp

/-- The two-run rule: when related steps keep related states related, so do
    related runs. -/
theorem run_related {R : State → State → Prop} {alike : Label → Label → Prop}
    (simulates : ∀ s t a b s', R s t → alike a b → sys.step s a = some s' →
      ∃ t', sys.step t b = some t' ∧ R s' t')
    {s t final : State} {labels labels' : List Label} (related : R s t)
    (alikes : List.Forall₂ alike labels labels') (ran : sys.run s labels = some final) :
    ∃ final', sys.run t labels' = some final' ∧ R final final' := by
  induction alikes generalizing s t with
  | nil =>
      obtain rfl := Option.some.inj ran
      exact ⟨t, rfl, related⟩
  | cons same _ ih =>
      obtain ⟨next, taken, ran⟩ := sys.run_cons_eq_some.mp ran
      obtain ⟨next', taken', related⟩ := simulates _ _ _ _ _ related same taken
      obtain ⟨final', ran', related⟩ := ih related ran
      exact ⟨final', sys.run_cons_eq_some.mpr ⟨next', taken', ran'⟩, related⟩

end System

section Simulation

variable {State Label Abstract Action : Type*} (sys : System State Label)
  (spec : System Abstract Action)

theorem System.run_append (s : State) (first second : List Label) :
    sys.run s (first ++ second) = (sys.run s first).bind (fun middle => sys.run middle second) := by
  induction first generalizing s with
  | nil => rfl
  | cons a rest ih =>
      simp only [List.cons_append, System.run, Option.bind_assoc]
      exact congrArg _ (funext ih)

/-- The refinement rule: when every step is matched by admissible actions of the
    specification, possibly by none, so is every run. -/
theorem System.run_refines {R : State → Abstract → Prop} {admits : Action → Prop}
    (simulates : ∀ s c a next, R s c → sys.step s a = some next →
      ∃ actions c', spec.run c actions = some c' ∧ (∀ action ∈ actions, admits action) ∧ R next c')
    {s final : State} {c : Abstract} {labels : List Label} (related : R s c)
    (ran : sys.run s labels = some final) :
    ∃ actions c', spec.run c actions = some c' ∧ (∀ action ∈ actions, admits action) ∧
      R final c' := by
  induction labels generalizing s c with
  | nil =>
      obtain rfl := Option.some.inj ran
      exact ⟨[], c, rfl, by simp, related⟩
  | cons a rest ih =>
      obtain ⟨next, taken, ran⟩ := sys.run_cons_eq_some.mp ran
      obtain ⟨now, middle, matched, admitted, related⟩ := simulates s c a next related taken
      obtain ⟨later, c', matched', admitted', related⟩ := ih related ran
      refine ⟨now ++ later, c', ?_, ?_, related⟩
      · rw [System.run_append, matched]
        exact matched'
      · intro action member
        rcases List.mem_append.mp member with early | late
        · exact admitted action early
        · exact admitted' action late

/-- The refinement rule for systems whose labels show something to the outside:
    the run of the specification shows the same. -/
theorem System.run_traces {Visible : Type*} {seen : Label → Option Visible}
    {seen' : Action → Option Visible} {R : State → Abstract → Prop}
    (simulates : ∀ s c a next, R s c → sys.step s a = some next →
      ∃ actions c', spec.run c actions = some c' ∧
        actions.filterMap seen' = (seen a).toList ∧ R next c')
    {s final : State} {c : Abstract} {labels : List Label} (related : R s c)
    (ran : sys.run s labels = some final) :
    ∃ actions c', spec.run c actions = some c' ∧
      actions.filterMap seen' = labels.filterMap seen ∧ R final c' := by
  induction labels generalizing s c with
  | nil =>
      obtain rfl := Option.some.inj ran
      exact ⟨[], c, rfl, rfl, related⟩
  | cons a rest ih =>
      obtain ⟨next, taken, ran⟩ := sys.run_cons_eq_some.mp ran
      obtain ⟨now, middle, matched, shown, related⟩ := simulates s c a next related taken
      obtain ⟨later, c', matched', shown', related⟩ := ih related ran
      refine ⟨now ++ later, c', ?_, ?_, related⟩
      · rw [System.run_append, matched]
        exact matched'
      · rw [List.filterMap_append, shown, shown', List.filterMap_cons]
        cases seen a <;> rfl

end Simulation

section Effort

variable {State Label : Type*} (sys : System State Label)

/-- The termination rule: what the steps of a run cost comes out of the effort
    at its start and of what its labels bring in. -/
theorem System.run_bounded {inv : State → Prop} {effort : State → Nat} (cost gain : Label → Nat)
    (pays : ∀ s a next, inv s → sys.step s a = some next →
      inv next ∧ effort next + cost a ≤ effort s + gain a)
    {s final : State} {labels : List Label} (initial : inv s)
    (ran : sys.run s labels = some final) :
    effort final + (labels.map cost).sum ≤ effort s + (labels.map gain).sum := by
  induction labels generalizing s with
  | nil =>
      obtain rfl := Option.some.inj ran
      exact Nat.le_refl _
  | cons a rest ih =>
      obtain ⟨next, taken, ran⟩ := sys.run_cons_eq_some.mp ran
      obtain ⟨kept, paid⟩ := pays s a next initial taken
      have later := ih kept ran
      simp only [List.map_cons, List.sum_cons]
      omega

/-- The cost of some of the steps is their number. -/
theorem sum_map_toNat (counts : Label → Bool) (labels : List Label) :
    (labels.map (fun label => (counts label).toNat)).sum = labels.countP counts := by
  induction labels with
  | nil => rfl
  | cons label rest ih =>
      rw [List.map_cons, List.sum_cons, ih, List.countP_cons]
      cases counts label with
      | false => exact Nat.zero_add _
      | true => exact Nat.add_comm 1 _

/-- Replacing one row of a table exchanges the effort of that row. -/
theorem sum_map_set {Row : Type*} (effort : Row → Nat) {rows : List Row} {i : Nat} {old : Row}
    (present : rows[i]? = some old) (new : Row) :
    ((rows.set i new).map effort).sum + effort old = (rows.map effort).sum + effort new := by
  induction rows generalizing i with
  | nil => simp at present
  | cons row rest ih =>
      cases i with
      | zero =>
          obtain rfl := Option.some.inj present
          simp only [List.set_cons_zero, List.map_cons, List.sum_cons]
          omega
      | succ i =>
          have tail := ih (i := i) (by simpa using present)
          simp only [List.set_cons_succ, List.map_cons, List.sum_cons]
          omega

end Effort

section Linked

variable {State Step : Type*} {before after : Step → State}

/-- Every step of the log starts where the one before it stopped. -/
def Linked (before after : Step → State) (steps : List Step) : Prop :=
  steps.IsChain (fun first second => after first = before second)

/-- What every step in between respects relates the ends. -/
theorem Linked.relates {R : State → State → Prop} (reflexive : ∀ s, R s s)
    (transitive : ∀ {a b c}, R a b → R b c → R a c) {first last : Step} {between : List Step}
    (linked : Linked before after (first :: between ++ [last]))
    (each : ∀ step ∈ between, R (before step) (after step)) : R (after first) (before last) := by
  induction between generalizing first with
  | nil =>
      obtain ⟨meets, _⟩ := List.isChain_cons_cons.mp linked
      rw [meets]
      exact reflexive _
  | cons next rest ih =>
      obtain ⟨meets, linked⟩ := List.isChain_cons_cons.mp linked
      have here : R (after first) (after next) := by
        rw [meets]
        exact each next List.mem_cons_self
      refine transitive here (ih linked ?_)
      exact fun step member => each step (List.mem_cons_of_mem _ member)

end Linked

/-- What is in a log stays at its place when the log grows at its end. -/
theorem found_of_grown {α : Type*} {log longer : List α} (grows : log <+: longer) {i : Nat} {x : α}
    (found : log[i]? = some x) : longer[i]? = some x := by
  obtain ⟨added, rfl⟩ := grows
  rw [List.getElem?_append_left (List.getElem?_eq_some_iff.mp found).1, found]

end Transition
