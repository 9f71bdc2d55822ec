import Mathlib.Algebra.BigOperators.Group.Multiset.Basic
import Mathlib.Algebra.Order.Group.Multiset
import Mathlib.Tactic.Abel

/-! # Bounded broadcast channels

A broadcast channel keeps, for each receiver, the messages it has not received
yet.  A bounded channel overwrites the oldest of them when a receiver is a full
capacity behind; the receiver learns only how many messages it lost.  An
unbounded channel (`capacity = none`) never overwrites.

Messages are accounted for as multisets: what a send puts into a channel is
afterwards either waiting for a receiver or recorded as missed by it.
-/

namespace Broadcast

section Rows

variable {Row α : Type*} (contents : Row → List α)

/-- Replacing one row of a table exchanges the contents of that row. -/
theorem flatMap_set {rows : List Row} {i : Nat} {old : Row} (present : rows[i]? = some old)
    (new : Row) :
    (((rows.set i new).flatMap contents : List α) : Multiset α) + contents old =
      (rows.flatMap contents : List α) + contents new := by
  induction rows generalizing i with
  | nil => simp at present
  | cons row rest ih =>
      cases i with
      | zero =>
          obtain rfl := Option.some.inj present
          simp only [List.set_cons_zero, List.flatMap_cons, ← Multiset.coe_add]
          abel
      | succ i =>
          have tail := ih (i := i) (by simpa using present)
          simp only [List.set_cons_succ, List.flatMap_cons, ← Multiset.coe_add, add_assoc, tail]

/-- Taking an element out of one row. -/
theorem flatMap_set_take {rows : List Row} {i : Nat} {old new : Row} {gone : Multiset α}
    (present : rows[i]? = some old)
    (taken : (contents old : Multiset α) = gone + contents new) :
    (rows.flatMap contents : Multiset α) = gone + ((rows.set i new).flatMap contents : List α) := by
  have exchanged := flatMap_set contents present new
  rw [taken, ← add_assoc] at exchanged
  rw [add_comm gone]
  exact (add_right_cancel exchanged).symm

/-- Putting an element into one row. -/
theorem flatMap_set_put {rows : List Row} {i : Nat} {old new : Row} {added : Multiset α}
    (present : rows[i]? = some old)
    (put : (contents new : Multiset α) = added + contents old) :
    (((rows.set i new).flatMap contents : List α) : Multiset α) =
      added + (rows.flatMap contents : List α) := by
  have exchanged := flatMap_set contents present new
  rw [put, ← add_assoc] at exchanged
  rw [add_comm added]
  exact add_right_cancel exchanged

variable {β : Type*} (view : α → Option β)

theorem filterMap_first (x : α) (rest : List α) :
    ((x :: rest).filterMap view : Multiset β) =
      ((view x).toList : List β) + (rest.filterMap view : List β) := by
  cases seen : view x <;> simp [seen]

theorem filterMap_last (front : List α) (x : α) :
    ((front ++ [x]).filterMap view : Multiset β) =
      ((view x).toList : List β) + (front.filterMap view : List β) := by
  rw [List.filterMap_append, ← Multiset.coe_add, add_comm, filterMap_first]
  simp

end Rows

/-- One receiver's view of the channel. -/
structure Receiver (α : Type*) where
  /-- Retained and not yet received, oldest first. -/
  pending : List α := []
  /-- Overwritten since the receiver last looked. -/
  lagged : Nat := 0
  /-- Every message overwritten before this receiver got to it. -/
  missed : List α := []
  deriving DecidableEq, Repr

structure Channel (α : Type*) where
  capacity : Option Nat
  receivers : List (Receiver α) := []
  deriving DecidableEq, Repr

variable {α : Type*}

namespace Receiver

/-- The receiver is a whole capacity behind, so that the next message
    overwrites its oldest one. -/
def full (capacity : Option Nat) (r : Receiver α) : Bool :=
  capacity.any (fun bound => bound ≤ r.pending.length)

def offer (capacity : Option Nat) (message : α) (r : Receiver α) : Receiver α :=
  match r.pending with
  | [] => { r with pending := [message] }
  | oldest :: rest =>
      if r.full capacity then
        { pending := rest ++ [message], lagged := r.lagged + 1, missed := r.missed ++ [oldest] }
      else { r with pending := r.pending ++ [message] }

theorem offer_accounts (capacity : Option Nat) (message : α) (r : Receiver α) :
    ((r.offer capacity message).pending : Multiset α) + (r.offer capacity message).missed =
      {message} + (r.pending + r.missed) := by
  cases waiting : r.pending with
  | nil => simp [offer, waiting]
  | cons oldest rest =>
      simp only [offer, waiting]
      split
      · simp only [← Multiset.coe_add, ← Multiset.singleton_add, ← Multiset.cons_coe]
        abel
      · simp only [← Multiset.coe_add, Multiset.coe_singleton]
        abel

theorem offer_of_room {capacity : Option Nat} {r : Receiver α} (room : r.full capacity = false)
    (message : α) :
    r.offer capacity message = { r with pending := r.pending ++ [message] } := by
  cases waiting : r.pending with
  | nil => simp [offer, waiting]
  | cons oldest rest => simp [offer, waiting, room]

theorem missed_length_le_offer (capacity : Option Nat) (message : α) (r : Receiver α) :
    r.missed.length ≤ (r.offer capacity message).missed.length := by
  cases waiting : r.pending with
  | nil => simp [offer, waiting]
  | cons oldest rest =>
      simp only [offer, waiting]
      split <;> simp

theorem mem_offer_missed {capacity : Option Nat} {message x : α} {r : Receiver α} :
    x ∈ (r.offer capacity message).missed ↔
      x ∈ r.missed ∨ (r.full capacity = true ∧ r.pending.head? = some x) := by
  cases waiting : r.pending with
  | nil => simp [offer, waiting]
  | cons oldest rest =>
      cases behind : r.full capacity with
      | false => simp [offer, waiting, behind]
      | true => simp [offer, waiting, behind, eq_comm]

end Receiver

namespace Channel

def send (c : Channel α) (message : α) : Channel α :=
  { c with receivers := c.receivers.map (fun r => r.offer c.capacity message) }

def subscribe (c : Channel α) : Channel α :=
  { c with receivers := c.receivers ++ [{}] }

/-- One receive of one receiver: a lagging receiver is told so first
    (`none`), otherwise it gets its oldest retained message. -/
def recv (c : Channel α) (i : Nat) : Option (Option α × Channel α) :=
  c.receivers[i]?.bind (fun r =>
    if 0 < r.lagged then
      some (none, { c with receivers := c.receivers.set i { r with lagged := 0 } })
    else match r.pending with
      | [] => none
      | message :: rest =>
          some (some message, { c with receivers := c.receivers.set i { r with pending := rest } }))

/-- All messages still waiting for some receiver, once for each of them. -/
def waiting (c : Channel α) : List α := c.receivers.flatMap (·.pending)

/-- All messages overwritten before some receiver got to them. -/
def missed (c : Channel α) : List α := c.receivers.flatMap (·.missed)

@[simp] theorem send_capacity (c : Channel α) (message : α) :
    (c.send message).capacity = c.capacity := rfl

@[simp] theorem send_receivers_length (c : Channel α) (message : α) :
    (c.send message).receivers.length = c.receivers.length := by
  simp [send]

/-- Nothing disappears in a send: each receiver has the message waiting, and
    whatever was overwritten is recorded as missed. -/
theorem send_accounts (c : Channel α) (message : α) :
    ((c.send message).waiting : Multiset α) + (c.send message).missed =
      Multiset.replicate c.receivers.length message + (c.waiting + c.missed) := by
  obtain ⟨capacity, receivers⟩ := c
  simp only [send, waiting, missed]
  induction receivers with
  | nil => simp
  | cons r rest ih =>
      have head := r.offer_accounts capacity message
      simp only [List.map_cons, List.flatMap_cons, List.length_cons, ← Multiset.coe_add,
        Multiset.replicate_succ, ← Multiset.singleton_add]
      calc
        _ = (((r.offer capacity message).pending : Multiset α) +
              (r.offer capacity message).missed) +
            (((rest.map (fun r => r.offer capacity message)).flatMap (·.pending) : List α) +
              ((rest.map (fun r => r.offer capacity message)).flatMap (·.missed) : List α)) := by
            abel
        _ = ({message} + (r.pending + r.missed)) + (Multiset.replicate rest.length message +
            ((rest.flatMap (·.pending) : List α) + (rest.flatMap (·.missed) : List α))) := by
          rw [head, ih]
        _ = _ := by abel

/-- A send makes exactly the receivers that are a whole capacity behind miss
    their oldest message. -/
theorem mem_send_missed {c : Channel α} {message x : α} :
    x ∈ (c.send message).missed ↔ x ∈ c.missed ∨
      ∃ r ∈ c.receivers, r.full c.capacity = true ∧ r.pending.head? = some x := by
  simp only [missed, send, List.mem_flatMap, List.mem_map]
  constructor
  · intro ⟨_, ⟨r, inside, same⟩, member⟩
    subst same
    rcases Receiver.mem_offer_missed.mp member with old | ⟨behind, first⟩
    · exact .inl ⟨r, inside, old⟩
    · exact .inr ⟨r, inside, behind, first⟩
  · intro member
    rcases member with ⟨r, inside, old⟩ | ⟨r, inside, behind, first⟩
    · exact ⟨_, ⟨r, inside, rfl⟩, Receiver.mem_offer_missed.mpr (.inl old)⟩
    · exact ⟨_, ⟨r, inside, rfl⟩, Receiver.mem_offer_missed.mpr (.inr ⟨behind, first⟩)⟩

/-- What was missed stays missed. -/
theorem missed_length_le_send (c : Channel α) (message : α) :
    c.missed.length ≤ (c.send message).missed.length := by
  obtain ⟨capacity, receivers⟩ := c
  simp only [send, missed]
  induction receivers with
  | nil => simp
  | cons r rest ih =>
      have head := r.missed_length_le_offer capacity message
      simp only [List.map_cons, List.flatMap_cons, List.length_append]
      omega

theorem send_lossless {c : Channel α} (unbounded : c.capacity = none) (message : α) :
    (c.send message).missed = c.missed := by
  have kept : ∀ r : Receiver α, (r.offer none message).missed = r.missed := by
    intro r
    rw [r.offer_of_room rfl]
  simp [send, missed, unbounded, List.flatMap_map, kept]

/-- Everything one receive can do. -/
theorem recv_cases {c c' : Channel α} {i : Nat} {got : Option α} (h : c.recv i = some (got, c')) :
    ∃ r r', c.receivers[i]? = some r ∧ c' = { c with receivers := c.receivers.set i r' } ∧
      r'.missed = r.missed ∧
      ((got = none ∧ r'.pending = r.pending) ∨ ∃ message, got = some message ∧
        r.pending = message :: r'.pending) := by
  obtain ⟨r, present, h⟩ := Option.bind_eq_some_iff.mp h
  split at h
  · obtain ⟨rfl, rfl⟩ := Prod.mk.inj (Option.some.inj h)
    exact ⟨r, _, present, rfl, rfl, .inl ⟨rfl, rfl⟩⟩
  · split at h
    · cases h
    · rename_i message rest waiting
      obtain ⟨rfl, rfl⟩ := Prod.mk.inj (Option.some.inj h)
      exact ⟨r, _, present, rfl, rfl, .inr ⟨message, rfl, waiting⟩⟩

/-- A receive moves the message it returns out of the channel and nothing else. -/
theorem recv_accounts {c c' : Channel α} {i : Nat} {got : Option α}
    (h : c.recv i = some (got, c')) :
    (c.waiting : Multiset α) = got.toList + (c'.waiting : Multiset α) ∧
      (c'.missed : Multiset α) = c.missed ∧ c'.capacity = c.capacity ∧
      c'.receivers.length = c.receivers.length ∧ i < c.receivers.length := by
  obtain ⟨r, r', present, rfl, sameMissed, moved⟩ := recv_cases h
  have inside : i < c.receivers.length := (List.getElem?_eq_some_iff.mp present).1
  refine ⟨?_, ?_, rfl, by simp, inside⟩
  · refine flatMap_set_take _ present ?_
    rcases moved with ⟨rfl, same⟩ | ⟨message, rfl, taken⟩
    · simp [same]
    · simp [taken]
  · have exchanged := flatMap_set (fun r : Receiver α => r.missed) present r'
    rw [sameMissed] at exchanged
    exact add_right_cancel exchanged

end Channel

end Broadcast
