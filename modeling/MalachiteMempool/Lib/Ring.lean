import MalachiteMempool.Lib.Broadcast

/-! # A broadcast channel as one ring

All receivers of a channel share one ring, which keeps the last messages sent.
Messages are numbered as they are sent, and a receiver is a cursor: the number
it reads next.  A cursor that the ring has overtaken is told how many messages
it lost and goes on with the oldest one kept.

A cursor remembers what became of every number since it was made, and its view
of the ring is a receiver of the channel that keeps one queue for each receiver.
-/

namespace Broadcast

/-- Of the messages sent, the ring keeps the last `size`; the others are only
    there to speak about. -/
structure Ring (α : Type*) where
  size : Nat
  sent : List α := []

structure Cursor where
  /-- How many messages were sent before it was made. -/
  start : Nat
  /-- The number of the message it reads next. -/
  next : Nat
  /-- The numbers of the messages it has read. -/
  received : List Nat := []
  /-- How many messages it was told to have lost. -/
  skipped : Nat := 0
  deriving DecidableEq, Repr

variable {α : Type*}

namespace Ring

/-- The oldest number that the ring keeps, or will keep first. -/
def oldest (ring : Ring α) : Nat := ring.sent.length - ring.size

def send (ring : Ring α) (message : α) : Ring α := { ring with sent := ring.sent ++ [message] }

def subscribe (ring : Ring α) : Cursor := ⟨ring.sent.length, ring.sent.length, [], 0⟩

/-- One receive: `none` when there is nothing to read, otherwise the news of a
    loss or the next message with its number. -/
def recv (ring : Ring α) (cursor : Cursor) : Option (Option (Nat × α) × Cursor) :=
  if cursor.next < ring.oldest then
    some (none, { cursor with
      next := ring.oldest
      skipped := cursor.skipped + (ring.oldest - cursor.next) })
  else
    ring.sent[cursor.next]?.map (fun message =>
      (some (cursor.next, message), { cursor with
        next := cursor.next + 1
        received := cursor.received ++ [cursor.next] }))

theorem oldest_le (ring : Ring α) : ring.oldest ≤ ring.sent.length := Nat.sub_le _ _

theorem oldest_le_send (ring : Ring α) (message : α) :
    ring.oldest ≤ (ring.send message).oldest := by
  simp only [oldest, send, List.length_append]
  omega

/-- Everything one receive can do. -/
theorem recv_cases {ring : Ring α} {cursor cursor' : Cursor} {got : Option (Nat × α)}
    (h : ring.recv cursor = some (got, cursor')) :
    (cursor.next < ring.oldest ∧ got = none ∧ cursor' = { cursor with
        next := ring.oldest, skipped := cursor.skipped + (ring.oldest - cursor.next) }) ∨
    ∃ message, ring.oldest ≤ cursor.next ∧ ring.sent[cursor.next]? = some message ∧
      got = some (cursor.next, message) ∧ cursor' = { cursor with
        next := cursor.next + 1, received := cursor.received ++ [cursor.next] } := by
  unfold recv at h
  split at h
  · rename_i overtaken
    obtain ⟨rfl, rfl⟩ := Prod.mk.inj (Option.some.inj h)
    exact .inl ⟨overtaken, rfl, rfl⟩
  · rename_i kept
    obtain ⟨message, present, same⟩ := Option.map_eq_some_iff.mp h
    obtain ⟨rfl, rfl⟩ := Prod.mk.inj same
    exact .inr ⟨message, Nat.not_lt.mp kept, present, rfl, rfl⟩

end Ring

namespace Cursor

/-- What a cursor knows: it has read in order, and every number before the next
    one was read, or lost because the ring went past it. -/
structure Sound (ring : Ring α) (cursor : Cursor) : Prop where
  started : cursor.start ≤ cursor.next
  bounded : cursor.next ≤ ring.sent.length
  increasing : cursor.received.Pairwise (· < ·)
  inside : ∀ number ∈ cursor.received, cursor.start ≤ number ∧ number < cursor.next
  counted : cursor.start + (cursor.received.length + cursor.skipped) = cursor.next
  complete : ∀ number, cursor.start ≤ number → number < cursor.next →
    number ∉ cursor.received → number < ring.oldest

theorem sound_subscribe (ring : Ring α) : ring.subscribe.Sound ring where
  started := Nat.le_refl _
  bounded := Nat.le_refl _
  increasing := List.Pairwise.nil
  inside := by simp [Ring.subscribe]
  counted := rfl
  complete := by
    intro number later earlier
    exact absurd earlier (Nat.not_lt.mpr later)

theorem Sound.send {ring : Ring α} {cursor : Cursor} (sound : cursor.Sound ring) (message : α) :
    cursor.Sound (ring.send message) where
  started := sound.started
  bounded := by
    have bounded := sound.bounded
    simp only [Ring.send, List.length_append]
    omega
  increasing := sound.increasing
  inside := sound.inside
  counted := sound.counted
  complete := by
    intro number later earlier unread
    exact Nat.lt_of_lt_of_le (sound.complete number later earlier unread)
      (ring.oldest_le_send message)

theorem Sound.recv {ring : Ring α} {cursor cursor' : Cursor} {got : Option (Nat × α)}
    (sound : cursor.Sound ring) (h : ring.recv cursor = some (got, cursor')) :
    cursor'.Sound ring := by
  have started := sound.started
  have counted := sound.counted
  have kept := ring.oldest_le
  rcases Ring.recv_cases h with ⟨overtaken, rfl, rfl⟩ | ⟨message, reached, present, rfl, rfl⟩
  · refine ⟨by dsimp only; omega, kept, sound.increasing, ?_, by dsimp only; omega, ?_⟩
    · intro number member
      have placed := sound.inside number member
      dsimp only
      omega
    · intro number _ earlier _
      exact earlier
  · have inside : cursor.next < ring.sent.length := (List.getElem?_eq_some_iff.mp present).1
    refine ⟨by dsimp only; omega, inside, ?_, ?_, ?_, ?_⟩
    · apply List.pairwise_append.mpr
      refine ⟨sound.increasing, List.pairwise_singleton _ _, ?_⟩
      intro number member last isLast
      obtain rfl := List.mem_singleton.mp isLast
      exact (sound.inside number member).2
    · intro number member
      rcases List.mem_append.mp member with old | new
      · have placed := sound.inside number old
        dsimp only
        omega
      · obtain rfl := List.mem_singleton.mp new
        dsimp only
        omega
    · simp only [List.length_append, List.length_singleton]
      omega
    · intro number later earlier unread
      dsimp only at later earlier unread
      have old : number ∉ cursor.received := by
        intro member
        exact unread (List.mem_append_left _ member)
      have different : number ≠ cursor.next := by
        rintro rfl
        exact unread (List.mem_append_right _ List.mem_cons_self)
      exact sound.complete number later (by omega) old

/-- The numbers that the ring took from the cursor. -/
def missedNumbers (ring : Ring α) (cursor : Cursor) : List Nat :=
  (List.range ring.oldest).filter (fun number =>
    decide (cursor.start ≤ number ∧ number ∉ cursor.received))

/-- The receiver that a cursor is in the channel with a queue for each receiver. -/
def view (ring : Ring α) (cursor : Cursor) : Receiver α where
  pending := ring.sent.drop (max cursor.next ring.oldest)
  lagged := ring.oldest - cursor.next
  missed := (cursor.missedNumbers ring).filterMap (fun number => ring.sent[number]?)

theorem view_subscribe (ring : Ring α) : ring.subscribe.view ring = {} := by
  have kept := ring.oldest_le
  have none_missed : ring.subscribe.missedNumbers ring = [] := by
    apply List.filter_eq_nil_iff.mpr
    intro number member
    have earlier := List.mem_range.mp member
    intro later
    have started : ring.sent.length ≤ number := (decide_eq_true_eq.mp later).1
    omega
  unfold view
  rw [none_missed]
  simp [Ring.subscribe, kept]

/-- The next message moves the ring past the oldest one once the ring is full. -/
theorem oldest_send (ring : Ring α) (message : α) :
    (ring.send message).oldest =
      if ring.size ≤ ring.sent.length then ring.oldest + 1 else ring.oldest := by
  simp only [Ring.oldest, Ring.send, List.length_append, List.length_singleton]
  split <;> omega

theorem full_view {ring : Ring α} {cursor : Cursor} (positive : 0 < ring.size)
    (sound : cursor.Sound ring) :
    (cursor.view ring).full (some ring.size) = true ↔
      ring.size ≤ ring.sent.length ∧ cursor.next ≤ ring.oldest := by
  have bounded := sound.bounded
  simp only [Receiver.full, view, Option.any_some, decide_eq_true_eq, List.length_drop, Ring.oldest]
  omega

/-- A number that the ring goes past was read, or is lost now. -/
theorem missedNumbers_send {ring : Ring α} {cursor : Cursor} (sound : cursor.Sound ring)
    (message : α) :
    cursor.missedNumbers (ring.send message) =
      cursor.missedNumbers ring ++
        (if ring.size ≤ ring.sent.length ∧ cursor.next ≤ ring.oldest then [ring.oldest] else []) := by
  unfold missedNumbers
  rw [oldest_send]
  by_cases full : ring.size ≤ ring.sent.length
  · rw [if_pos full, List.range_succ, List.filter_append]
    congr 1
    by_cases behind : cursor.next ≤ ring.oldest
    · have started := sound.started
      have unread : ring.oldest ∉ cursor.received := by
        intro member
        exact absurd (sound.inside _ member).2 (Nat.not_lt.mpr behind)
      rw [if_pos ⟨full, behind⟩, List.filter_cons_of_pos]
      · rfl
      · exact decide_eq_true ⟨by omega, unread⟩
    · have read : ¬ (cursor.start ≤ ring.oldest ∧ ring.oldest ∉ cursor.received) := by
        rintro ⟨later, unread⟩
        exact Nat.lt_irrefl _ (sound.complete _ later (Nat.not_le.mp behind) unread)
      rw [if_neg (fun both => behind both.2), List.filter_cons_of_neg]
      · rfl
      · rwa [decide_eq_true_eq]
  · rw [if_neg full, if_neg (fun both => full both.1), List.append_nil]

/-- A message sent to the ring is offered to every view of it. -/
theorem view_send {ring : Ring α} {cursor : Cursor} (positive : 0 < ring.size)
    (sound : cursor.Sound ring) (message : α) :
    cursor.view (ring.send message) = (cursor.view ring).offer (some ring.size) message := by
  have bounded := sound.bounded
  have kept := ring.oldest_le
  have older : (cursor.missedNumbers ring).filterMap
      (fun number => (ring.send message).sent[number]?) = (cursor.view ring).missed := by
    apply List.filterMap_congr
    intro number member
    have early := List.mem_range.mp (List.mem_filter.mp member).1
    exact List.getElem?_append_left (by omega)
  by_cases full : ring.size ≤ ring.sent.length ∧ cursor.next ≤ ring.oldest
  · have isFull := (full_view positive sound).mpr full
    have room : ring.oldest < ring.sent.length := by
      unfold Ring.oldest
      omega
    have pending : (cursor.view ring).pending =
        ring.sent[ring.oldest] :: ring.sent.drop (ring.oldest + 1) := by
      simp only [view]
      rw [Nat.max_eq_right full.2]
      exact List.drop_eq_getElem_cons room
    have taken : (ring.send message).sent[ring.oldest]? = some ring.sent[ring.oldest] := by
      rw [Ring.send, List.getElem?_append_left room, List.getElem?_eq_getElem room]
    have missed : (cursor.view (ring.send message)).missed =
        (cursor.view ring).missed ++ [ring.sent[ring.oldest]] := by
      rw [← older]
      simp only [view, missedNumbers_send sound, if_pos full, List.filterMap_append,
        List.filterMap_cons, taken, List.filterMap_nil]
    simp only [Receiver.offer, pending, isFull, if_true]
    rw [← missed]
    unfold view
    rw [oldest_send, if_pos full.1]
    congr 1
    · rw [Nat.max_eq_right (by omega)]
      exact List.drop_append_of_le_length room
    · exact Nat.sub_add_comm full.2
  · have roomy : (cursor.view ring).full (some ring.size) = false := by
      rw [Bool.eq_false_iff]
      intro isFull
      exact full ((full_view positive sound).mp isFull)
    rw [Receiver.offer_of_room roomy]
    have missed : (cursor.view (ring.send message)).missed = (cursor.view ring).missed := by
      rw [← older]
      simp only [view, missedNumbers_send sound, if_neg full, List.append_nil]
    have lagged : (cursor.view (ring.send message)).lagged = (cursor.view ring).lagged := by
      simp only [view, oldest_send]
      split <;> omega
    have pending : (cursor.view (ring.send message)).pending =
        (cursor.view ring).pending ++ [message] := by
      have first : max cursor.next (ring.send message).oldest = max cursor.next ring.oldest := by
        rw [oldest_send]
        split <;> omega
      simp only [view, first]
      exact List.drop_append_of_le_length (by omega)
    rw [← missed, ← lagged, ← pending]

/-- What a cursor reads, its view receives. -/
theorem view_recv {ring : Ring α} {cursor cursor' : Cursor} {got : Option (Nat × α)}
    (h : ring.recv cursor = some (got, cursor')) :
    (0 < (cursor.view ring).lagged ∧ got = none ∧
      cursor'.view ring = { cursor.view ring with lagged := 0 }) ∨
    ∃ number message, (cursor.view ring).lagged = 0 ∧ got = some (number, message) ∧
      (cursor.view ring).pending = message :: (cursor'.view ring).pending ∧
      cursor'.view ring = { cursor.view ring with pending := (cursor'.view ring).pending } := by
  rcases Ring.recv_cases h with ⟨overtaken, rfl, rfl⟩ | ⟨message, reached, present, rfl, rfl⟩
  · refine .inl ⟨Nat.sub_pos_of_lt overtaken, rfl, ?_⟩
    simp only [view, missedNumbers, Nat.max_self, Nat.sub_self, Receiver.mk.injEq]
    refine ⟨?_, trivial, trivial⟩
    rw [Nat.max_eq_right (Nat.le_of_lt overtaken)]
  · obtain ⟨inside, isMessage⟩ := List.getElem?_eq_some_iff.mp present
    refine .inr ⟨cursor.next, message, Nat.sub_eq_zero_of_le reached, rfl, ?_, ?_⟩
    · simp only [view]
      rw [Nat.max_eq_left reached, Nat.max_eq_left (by omega), ← isMessage]
      exact List.drop_eq_getElem_cons inside
    · have sameMissed : missedNumbers ring { cursor with
          next := cursor.next + 1, received := cursor.received ++ [cursor.next] } =
          cursor.missedNumbers ring := by
        apply List.filter_congr
        intro number member
        have early := List.mem_range.mp member
        have different : number ≠ cursor.next := by omega
        simp [different]
      simp only [view, sameMissed, Receiver.mk.injEq]
      refine ⟨trivial, ?_, trivial⟩
      omega

end Cursor

end Broadcast
