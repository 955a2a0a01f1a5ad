import Mathlib.Data.List.Basic
import NoirNet.Lib.Machine

/-!
# Bounded channels

A first-in first-out channel never holds more than its capacity.  A send that
finds no room waits; a receive takes the oldest item.  A machine with a channel
among its variables loses nothing and keeps the order, as long as each step
does: `Machine.conserved`.
-/

namespace NoirNet.Lib

structure Channel (α : Type*) (capacity : Nat) where
  items : List α
  bounded : items.length ≤ capacity

namespace Channel

variable {α : Type*} {capacity : Nat}

def empty : Channel α capacity := ⟨[], Nat.zero_le capacity⟩

def send (channel : Channel α capacity) (a : α) : Option (Channel α capacity) :=
  if h : channel.items.length < capacity then
    some ⟨channel.items ++ [a], by rw [List.length_append, List.length_singleton]; exact h⟩
  else none

def recv : Channel α capacity → Option (α × Channel α capacity)
  | ⟨[], _⟩ => none
  | ⟨a :: items, h⟩ => some (a, ⟨items, Nat.le_of_succ_le h⟩)

@[simp] theorem items_empty : (empty : Channel α capacity).items = [] := rfl

theorem items_of_send {channel channel' : Channel α capacity} {a : α}
    (h : channel.send a = some channel') : channel'.items = channel.items ++ [a] := by
  unfold send at h
  split at h
  · cases h
    rfl
  · cases h

theorem items_of_recv {channel channel' : Channel α capacity} {a : α}
    (h : channel.recv = some (a, channel')) : channel.items = a :: channel'.items := by
  obtain ⟨items, hbounded⟩ := channel
  cases items with
  | nil => cases h
  | cons b items =>
      cases h
      rfl

theorem recv_eq_none_iff {channel : Channel α capacity} :
    channel.recv = none ↔ channel.items = [] := by
  obtain ⟨items, hbounded⟩ := channel
  cases items <;> simp [recv]

end Channel

/-- What was queued and what enters is what leaves and what is queued, in order. -/
theorem Machine.conserved {σ ι ο α : Type*} (m : Machine σ ι ο) (Inv : σ → Prop)
    (hkeep : ∀ s i, Inv s → Inv (m.step s i).1) (queue : σ → List α) (entered left : ο → Option α)
    (hstep : ∀ s i, Inv s → queue s ++ (m.step s i).2.filterMap entered =
      (m.step s i).2.filterMap left ++ queue (m.step s i).1)
    {s : σ} (hs : Inv s) (is : List ι) :
    queue s ++ (m.outputs s is).filterMap entered =
      (m.outputs s is).filterMap left ++ queue (m.final s is) := by
  induction is generalizing s with
  | nil => simp
  | cons i is ih =>
      rw [outputs_cons, final_cons, List.filterMap_append, List.filterMap_append]
      calc
        queue s ++ ((m.step s i).2.filterMap entered ++
            (m.outputs (m.step s i).1 is).filterMap entered) =
          (m.step s i).2.filterMap left ++ (queue (m.step s i).1 ++
            (m.outputs (m.step s i).1 is).filterMap entered) := by
            rw [← List.append_assoc, hstep s i hs, List.append_assoc]
        _ = (m.step s i).2.filterMap left ++ ((m.outputs (m.step s i).1 is).filterMap left ++
            queue (m.final (m.step s i).1 is)) := by
            rw [ih (hkeep s i hs)]
        _ = _ := (List.append_assoc _ _ _).symm

end NoirNet.Lib
