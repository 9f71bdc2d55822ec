import Mathlib.Data.Nat.Notation

/-! # Bounded channels

A queue of bounded length between two processes, with the rules of `tokio`'s
`mpsc`: a send waits while the queue is full and fails once the receiver is
gone; a receive waits while the queue is empty and returns nothing once the
sender is gone as well.

An operation that has to wait is `none`, so that the step it belongs to is not
enabled.
-/

namespace Mpsc

structure Channel (α : Type*) where
  capacity : Nat
  positive : 0 < capacity
  queue : List α
  bounded : queue.length ≤ capacity
  /-- Whether the two ends are still held. -/
  sender : Bool
  receiver : Bool

namespace Channel

variable {α : Type*}

def empty (capacity : Nat) (positive : 0 < capacity) : Channel α where
  capacity := capacity
  positive := positive
  queue := []
  bounded := Nat.zero_le capacity
  sender := true
  receiver := true

def Full (c : Channel α) : Prop := c.receiver = true ∧ c.queue.length = c.capacity

/-- Whether the message was taken, once the send is over. -/
def send (c : Channel α) (x : α) : Option (Bool × Channel α) :=
  if c.receiver then
    if room : c.queue.length < c.capacity then
      some (true, { c with
        queue := c.queue ++ [x]
        bounded := by
          rw [List.length_append]
          exact room })
    else none
  else some (false, c)

/-- The oldest message; nothing once the channel is closed and empty. -/
def recv (c : Channel α) : Option (Option α × Channel α) :=
  match c.queue, c.bounded with
  | [], _ => if c.sender then none else some (none, c)
  | x :: rest, bounded => some (some x, { c with
      queue := rest
      bounded := Nat.le_of_succ_le bounded })

def dropSender (c : Channel α) : Channel α := { c with sender := false }

/-- What is still in the queue is lost. -/
def dropReceiver (c : Channel α) : Channel α :=
  { c with queue := [], bounded := Nat.zero_le c.capacity, receiver := false }

@[simp] theorem dropSender_sender (c : Channel α) : c.dropSender.sender = false := rfl

@[simp] theorem dropSender_receiver (c : Channel α) : c.dropSender.receiver = c.receiver := rfl

@[simp] theorem dropReceiver_sender (c : Channel α) : c.dropReceiver.sender = c.sender := rfl

@[simp] theorem dropReceiver_receiver (c : Channel α) : c.dropReceiver.receiver = false := rfl

theorem send_eq_none {c : Channel α} {x : α} : c.send x = none ↔ c.Full := by
  have bounded := c.bounded
  rw [send, Full]
  cases c.receiver with
  | false => simp
  | true =>
      simp only [if_true, true_and]
      split <;> simp <;> omega

/-- What a send leaves. -/
theorem send_eq_some {c next : Channel α} {x : α} {delivered : Bool}
    (sent : c.send x = some (delivered, next)) :
    delivered = c.receiver ∧ next.sender = c.sender ∧ next.receiver = c.receiver ∧
      next.queue = if delivered then c.queue ++ [x] else c.queue := by
  rw [send] at sent
  cases isOpen : c.receiver with
  | false =>
      rw [isOpen] at sent
      simp only [Bool.false_eq_true, if_false, Option.some.injEq, Prod.mk.injEq] at sent
      obtain ⟨rfl, rfl⟩ := sent
      exact ⟨rfl, rfl, isOpen, rfl⟩
  | true =>
      rw [isOpen] at sent
      simp only [if_true] at sent
      split at sent
      · simp only [Option.some.injEq, Prod.mk.injEq] at sent
        obtain ⟨rfl, rfl⟩ := sent
        exact ⟨rfl, rfl, rfl, rfl⟩
      · cases sent

theorem recv_eq_none {c : Channel α} : c.recv = none ↔ c.queue = [] ∧ c.sender = true := by
  obtain ⟨capacity, positive, queue, bounded, sender, receiver⟩ := c
  cases queue with
  | nil => cases sender <;> simp [recv]
  | cons x rest => simp [recv]

/-- What a receive leaves. -/
theorem recv_eq_some {c next : Channel α} {got : Option α} (received : c.recv = some (got, next)) :
    c.queue = got.toList ++ next.queue ∧ next.sender = c.sender ∧ next.receiver = c.receiver := by
  obtain ⟨capacity, positive, queue, bounded, sender, receiver⟩ := c
  cases queue with
  | nil =>
      cases sender with
      | true => cases received
      | false =>
          cases received
          exact ⟨rfl, rfl, rfl⟩
  | cons x rest =>
      cases received
      exact ⟨rfl, rfl, rfl⟩

/-- A full channel has something to receive. -/
theorem Full.nonempty {c : Channel α} (full : c.Full) : c.queue ≠ [] := by
  intro isEmpty
  have positive := c.positive
  have length := full.2
  rw [isEmpty, List.length_nil] at length
  omega

theorem recv_of_nonempty {c : Channel α} (nonempty : c.queue ≠ []) :
    ∃ x next, c.recv = some (some x, next) := by
  obtain ⟨capacity, positive, queue, bounded, sender, receiver⟩ := c
  cases queue with
  | nil => exact absurd rfl nonempty
  | cons x rest => exact ⟨x, _, rfl⟩

end Channel

end Mpsc
