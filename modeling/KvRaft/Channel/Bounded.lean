import Mathlib.Data.List.Basic

/-!
# Bounded channels

A channel holds at most `capacity` messages and hands them out in the order in which they were
sent. A full channel refuses what is sent to it; an empty one has nothing to receive.
-/

namespace KvRaft

/-- The messages that were sent and not received yet, oldest first. -/
structure Channel (capacity : ℕ) (α : Type) where
  queue : List α
  length_le : queue.length ≤ capacity

namespace Channel

variable {capacity : ℕ} {α : Type} {c c' : Channel capacity α} {x : α}

/-- A new channel. -/
def empty : Channel capacity α := ⟨[], Nat.zero_le _⟩

/-- Send a message, if there is room for it. -/
def trySend (c : Channel capacity α) (x : α) : Option (Channel capacity α) :=
  if h : c.queue.length < capacity then
    some ⟨c.queue ++ [x], by rw [List.length_append]; exact h⟩
  else none

/-- Send a message and do not care whether there was room. -/
def offer (c : Channel capacity α) (x : α) : Channel capacity α :=
  (c.trySend x).getD c

/-- Receive the oldest message. -/
def recv : Channel capacity α → Option (α × Channel capacity α)
  | ⟨[], _⟩ => none
  | ⟨x :: rest, h⟩ => some (x, ⟨rest, Nat.le_of_succ_le h⟩)

@[simp] theorem queue_empty : (empty : Channel capacity α).queue = [] := rfl

theorem queue_of_trySend (h : c.trySend x = some c') : c'.queue = c.queue ++ [x] := by
  unfold trySend at h
  split at h
  · rw [← Option.some.inj h]
  · exact absurd h (by simp)

theorem queue_of_recv (h : c.recv = some (x, c')) : c.queue = x :: c'.queue := by
  rcases c with ⟨_ | ⟨y, rest⟩, hle⟩
  · exact absurd h (by simp [recv])
  · obtain ⟨rfl, rfl⟩ := Prod.mk.inj (Option.some.inj h)
    rfl

/-- A channel that refuses a message is full. -/
theorem length_of_trySend (h : c.trySend x = none) : c.queue.length = capacity := by
  unfold trySend at h
  split at h
  · exact absurd h (by simp)
  · next hfull => exact Nat.le_antisymm c.length_le (Nat.not_lt.mp hfull)

/-- A channel that is not empty has a message to receive. -/
theorem exists_recv (h : c.queue ≠ []) : ∃ x c', c.recv = some (x, c') := by
  rcases c with ⟨_ | ⟨x, rest⟩, hle⟩
  · exact absurd rfl h
  · exact ⟨x, _, rfl⟩

/-- A channel that was offered a message has it last, or is full and has it not. -/
theorem offer_cases (c : Channel capacity α) (x : α) :
    (c.offer x).queue = c.queue ++ [x] ∨ c.offer x = c := by
  unfold offer
  cases h : c.trySend x with
  | some c' => exact Or.inl (queue_of_trySend h)
  | none => exact Or.inr rfl

end Channel

end KvRaft
