import Mathlib.Data.List.TakeDrop

/-!
# Replicas of a log

A leader moves through states one entry at a time; a replica hears entries of the leader's
log, in any order, some of them twice and some of them never, and takes one only if it bears
the number the replica waits for.  Nothing here knows what the entries are.

* `Numbered`: the entries bear consecutive numbers;
* `Follows`: the state is the one behind a front of the log;
* `Follows.append` and `Follows.advance`: the leader and the replica move.
-/

namespace NoirNet.Lib

/-- How entries move a state, and the numbers they bear. -/
structure Log (σ β : Type*) where
  advance : σ → β → σ
  number : β → Nat

namespace Log

variable {σ β : Type*} (l : Log σ β)

def replay (s : σ) (entries : List β) : σ := entries.foldl l.advance s

@[simp] theorem replay_nil (s : σ) : l.replay s [] = s := rfl

theorem replay_concat (s : σ) (entries : List β) (b : β) :
    l.replay s (entries ++ [b]) = l.advance (l.replay s entries) b := by
  rw [replay, List.foldl_append, List.foldl_cons, List.foldl_nil]
  rfl

def Numbered (base : Nat) (entries : List β) : Prop :=
  ∀ i b, entries[i]? = some b → l.number b = base + i

variable {l}

theorem numbered_nil (base : Nat) : l.Numbered base [] := by
  intro i b h
  simp at h

theorem Numbered.concat {base : Nat} {entries : List β} (h : l.Numbered base entries) {b : β}
    (hb : l.number b = base + entries.length) : l.Numbered base (entries ++ [b]) := by
  intro i b' hi
  rw [List.getElem?_append] at hi
  split at hi
  · exact h i b' hi
  · rw [List.getElem?_singleton] at hi
    split at hi
    · cases hi
      rw [hb]
      omega
    · cases hi

theorem Numbered.getElem?_eq {base : Nat} {entries : List β} (h : l.Numbered base entries)
    {b : β} (hb : b ∈ entries) {k : Nat} (hk : l.number b = base + k) :
    entries[k]? = some b := by
  obtain ⟨i, hi, hget⟩ := List.mem_iff_getElem.mp hb
  have hsome : entries[i]? = some b := by rw [List.getElem?_eq_getElem hi, hget]
  have hnumber := h i b hsome
  have hik : i = k := by omega
  rw [← hik, hsome]

structure Follows (l : Log σ β) (start : σ) (entries : List β) (k : Nat) (s : σ) : Prop where
  le : k ≤ entries.length
  eq : s = l.replay start (entries.take k)

variable {start s : σ} {entries : List β} {k : Nat}

theorem follows_zero (l : Log σ β) (start : σ) (entries : List β) :
    l.Follows start entries 0 start := ⟨Nat.zero_le _, rfl⟩

/-- The log grows behind a replica. -/
theorem Follows.append (h : l.Follows start entries k s) (more : List β) :
    l.Follows start (entries ++ more) k s where
  le := by
    rw [List.length_append]
    exact Nat.le_add_right_of_le h.le
  eq := by
    rw [List.take_append_of_le_length h.le]
    exact h.eq

/-- A replica takes the entry it waits for. -/
theorem Follows.advance (h : l.Follows start entries k s) {base : Nat}
    (hnumbered : l.Numbered base entries) {b : β} (hb : b ∈ entries)
    (hk : l.number b = base + k) : l.Follows start entries (k + 1) (l.advance s b) := by
  have hget := hnumbered.getElem?_eq hb hk
  obtain ⟨hlt, hat⟩ := List.getElem?_eq_some_iff.mp hget
  refine ⟨hlt, ?_⟩
  rw [List.take_succ_eq_append_getElem hlt, hat, replay_concat, h.eq]

theorem Follows.eq_replay (h : l.Follows start entries entries.length s) :
    s = l.replay start entries := by
  rw [h.eq, List.take_length]

end Log

end NoirNet.Lib
