import Mathlib.Data.Nat.Bitwise
import Mathlib.Data.Set.Basic
import Mathlib.Tactic.Ring

/-!
# Complete binary trees and their incremental frontier

`root node d leaves` is the root of the complete tree of depth `d` over an
arbitrary node operation.  A frontier is a list of optional subtree roots, one
slot a level: appending a leaf is an increment of a binary counter, and the
root is recovered by folding the slots with the roots of empty subtrees.

* `frontier_push`: the carry loop keeps the frontier invariant;
* `climb_eq_root`: folding the frontier gives the root of the padded tree;
* `eq_of_root_eq`: a root fixes its leaves when the node operation does not
  collide on the pairs of the two trees.
-/

namespace NoirNet.Lib.PerfectTree

variable {α : Type*} (node : α → α → α)

/-! ## The reference tree -/

/-- Root of the complete binary tree of the given depth over `leaves 0, leaves 1, …`. -/
def root : Nat → (Nat → α) → α
  | 0, leaves => leaves 0
  | d + 1, leaves => node (root d leaves) (root d fun i => leaves (2 ^ d + i))

def parents (level : Nat → α) : Nat → α := fun j => node (level (2 * j)) (level (2 * j + 1))

def emptyRoot (empty : α) : Nat → α
  | 0 => empty
  | d + 1 => node (emptyRoot empty d) (emptyRoot empty d)

theorem root_congr {d : Nat} {leaves leaves' : Nat → α}
    (h : ∀ i < 2 ^ d, leaves i = leaves' i) : root node d leaves = root node d leaves' := by
  induction d generalizing leaves leaves' with
  | zero => exact h 0 (by simp)
  | succ d ih =>
      have hpow : 2 ^ (d + 1) = 2 ^ d + 2 ^ d := by ring
      have hleft : root node d leaves = root node d leaves' :=
        ih fun i hi => h i (by omega)
      have hright : root node d (fun i => leaves (2 ^ d + i)) =
          root node d (fun i => leaves' (2 ^ d + i)) :=
        ih fun i hi => h (2 ^ d + i) (by omega)
      rw [root, root, hleft, hright]

theorem root_succ_eq_parents (d : Nat) (leaves : Nat → α) :
    root node (d + 1) leaves = root node d (parents node leaves) := by
  induction d generalizing leaves with
  | zero => rfl
  | succ d ih =>
      have hshift : parents node (fun i => leaves (2 ^ (d + 1) + i)) =
          fun i => parents node leaves (2 ^ d + i) := by
        funext i
        have heven : 2 ^ (d + 1) + 2 * i = 2 * (2 ^ d + i) := by ring
        have hodd : 2 ^ (d + 1) + (2 * i + 1) = 2 * (2 ^ d + i) + 1 := by ring
        simp only [parents, heven, hodd]
      calc
        root node (d + 2) leaves =
            node (root node (d + 1) leaves)
              (root node (d + 1) fun i => leaves (2 ^ (d + 1) + i)) := rfl
        _ = node (root node d (parents node leaves))
              (root node d fun i => parents node leaves (2 ^ d + i)) := by
            rw [ih, ih, hshift]
        _ = root node (d + 1) (parents node leaves) := rfl

/-! ## Binding -/

/-- The pairs of subtree roots that computing `root` combines. -/
def combined : Nat → (Nat → α) → Set (α × α)
  | 0, _ => ∅
  | d + 1, leaves =>
      insert (root node d leaves, root node d fun i => leaves (2 ^ d + i))
        (combined d leaves ∪ combined d fun i => leaves (2 ^ d + i))

theorem root_const (empty : α) (d : Nat) :
    root node d (fun _ => empty) = emptyRoot node empty d := by
  induction d with
  | zero => rfl
  | succ d ih => rw [root, emptyRoot, ih]

theorem combined_const (empty : α) {d : Nat} {p : α × α}
    (hp : p ∈ combined node d fun _ => empty) :
    ∃ i < d, p = (emptyRoot node empty i, emptyRoot node empty i) := by
  induction d with
  | zero => exact hp.elim
  | succ d ih =>
      rcases hp with rfl | hp
      · exact ⟨d, d.lt_succ_self, by rw [root_const]⟩
      · obtain ⟨i, hi, rfl⟩ := ih (hp.elim id id)
        exact ⟨i, hi.trans d.lt_succ_self, rfl⟩

/-- A tree with one leaf in front combines the root of its left half, or an empty one, with an
empty root. -/
theorem combined_single {empty : α} {leaves : Nat → α} (hempty : ∀ j > 0, leaves j = empty)
    {d : Nat} {p : α × α} (hp : p ∈ combined node d leaves) :
    ∃ i < d, (p.1 = root node i leaves ∨ p.1 = emptyRoot node empty i) ∧
      p.2 = emptyRoot node empty i := by
  induction d with
  | zero => exact hp.elim
  | succ d ih =>
      have hright : (fun i => leaves (2 ^ d + i)) = fun _ => empty := by
        funext i
        exact hempty _ (Nat.add_pos_left (Nat.two_pow_pos d) i)
      rw [combined, hright] at hp
      rcases hp with rfl | hp | hp
      · exact ⟨d, d.lt_succ_self, .inl rfl, root_const node empty d⟩
      · obtain ⟨i, hi, hpair⟩ := ih hp
        exact ⟨i, hi.trans d.lt_succ_self, hpair⟩
      · obtain ⟨i, hi, rfl⟩ := combined_const node empty hp
        exact ⟨i, hi.trans d.lt_succ_self, .inr rfl, rfl⟩

/-- No pair of `P` has the same image as another pair of `Q`. -/
def CollisionFree (P Q : Set (α × α)) : Prop :=
  ∀ p ∈ P, ∀ q ∈ Q, node p.1 p.2 = node q.1 q.2 → p = q

theorem eq_of_root_eq {d : Nat} {leaves leaves' : Nat → α}
    (hfree : CollisionFree node (combined node d leaves) (combined node d leaves'))
    (hroot : root node d leaves = root node d leaves') :
    ∀ i < 2 ^ d, leaves i = leaves' i := by
  induction d generalizing leaves leaves' with
  | zero =>
      intro i hi
      have hi0 : i = 0 := by simpa using hi
      subst hi0
      exact hroot
  | succ d ih =>
      have hpair := hfree _ (Set.mem_insert _ _) _ (Set.mem_insert _ _) hroot
      obtain ⟨hleft, hright⟩ := Prod.mk.inj hpair
      have hlow : ∀ i < 2 ^ d, leaves i = leaves' i :=
        ih (fun p hp q hq => hfree p (.inr (.inl hp)) q (.inr (.inl hq))) hleft
      have hhigh : ∀ i < 2 ^ d, leaves (2 ^ d + i) = leaves' (2 ^ d + i) :=
        ih (fun p hp q hq => hfree p (.inr (.inr hp)) q (.inr (.inr hq))) hright
      intro i hi
      by_cases hid : i < 2 ^ d
      · exact hlow i hid
      · have hpow : 2 ^ (d + 1) = 2 ^ d + 2 ^ d := by ring
        have h := hhigh (i - 2 ^ d) (by omega)
        rwa [show 2 ^ d + (i - 2 ^ d) = i by omega] at h

/-! ## The frontier -/

/-- The slots hold, from the leaves up, the complete left siblings on the path
of leaf number `n`. -/
def Frontier : (Nat → α) → Nat → List (Option α) → Prop
  | _, _, [] => True
  | level, n, slot :: slots =>
      slot = (if n % 2 = 1 then some (level (n - 1)) else none) ∧
        Frontier (parents node level) (n / 2) slots

/-- The carry loop: an occupied slot is combined and cleared, the first free slot
takes the carry. -/
def push : α → List (Option α) → List (Option α)
  | _, [] => []
  | carry, none :: slots => some carry :: slots
  | carry, some left :: slots => none :: push (node left carry) slots

@[simp] theorem length_push (carry : α) (slots : List (Option α)) :
    (push node carry slots).length = slots.length := by
  induction slots generalizing carry with
  | nil => rfl
  | cons slot slots ih => cases slot <;> simp [push, ih]

/-- Every push fills or empties the lowest slot. -/
theorem isSome_head_push (carry : α) (slots : List (Option α)) :
    (push node carry slots).head?.map Option.isSome =
      (slots.head?.map Option.isSome).map not := by
  cases slots with
  | nil => rfl
  | cons slot slots => cases slot <;> rfl

theorem frontier_congr {level level' : Nat → α} {n : Nat} {slots : List (Option α)}
    (h : ∀ j < n, level j = level' j) (hf : Frontier node level n slots) :
    Frontier node level' n slots := by
  induction slots generalizing level level' n with
  | nil => trivial
  | cons slot slots ih =>
      obtain ⟨hslot, hrest⟩ := hf
      constructor
      · rw [hslot]
        by_cases hn : n % 2 = 1
        · rw [if_pos hn, if_pos hn, h (n - 1) (by omega)]
        · rw [if_neg hn, if_neg hn]
      · apply ih _ hrest
        intro j hj
        simp only [parents]
        rw [h (2 * j) (by omega), h (2 * j + 1) (by omega)]

theorem frontier_push {level : Nat → α} {n : Nat} {slots : List (Option α)}
    (hf : Frontier node level n slots) :
    Frontier node level (n + 1) (push node (level n) slots) := by
  induction slots generalizing level n with
  | nil => trivial
  | cons slot slots ih =>
      obtain ⟨hslot, hrest⟩ := hf
      by_cases hn : n % 2 = 1
      · rw [if_pos hn] at hslot
        subst hslot
        have hcarry : node (level (n - 1)) (level n) = parents node level (n / 2) := by
          simp only [parents]
          rw [show 2 * (n / 2) = n - 1 by omega, show n - 1 + 1 = n by omega]
        have hhalf : (n + 1) / 2 = n / 2 + 1 := by omega
        rw [push, hcarry]
        refine ⟨by rw [if_neg (by omega)], ?_⟩
        rw [hhalf]
        exact ih hrest
      · rw [if_neg hn] at hslot
        subst hslot
        have hhalf : (n + 1) / 2 = n / 2 := by omega
        refine ⟨by rw [if_pos (by omega), Nat.add_sub_cancel], ?_⟩
        rw [hhalf]
        exact hrest

/-- A full counter overflows to the empty frontier. -/
theorem frontier_overflow {level level' : Nat → α} {d : Nat} {slots : List (Option α)}
    (hlen : slots.length = d) (hf : Frontier node level (2 ^ d) slots) :
    Frontier node level' 0 slots := by
  induction d generalizing level level' slots with
  | zero =>
      rw [List.length_eq_zero_iff.mp hlen]
      trivial
  | succ d ih =>
      cases slots with
      | nil => trivial
      | cons slot slots =>
          have heven : 2 ^ (d + 1) % 2 = 0 := by rw [pow_succ]; omega
          have hhalf : 2 ^ (d + 1) / 2 = 2 ^ d := by rw [pow_succ]; omega
          obtain ⟨hslot, hrest⟩ := hf
          rw [hhalf] at hrest
          refine ⟨?_, ih (by simpa using hlen) hrest⟩
          rw [hslot, if_neg (by omega), if_neg (by omega)]

theorem frontier_empty (level : Nat → α) (d : Nat) :
    Frontier node level 0 (List.replicate d none) := by
  induction d generalizing level with
  | zero => trivial
  | succ d ih => exact ⟨rfl, ih _⟩

/-! ## Folding the frontier -/

/-- Fold the slots from level `i` up: bit `i` of `size` says on which side the
current subtree hangs, and a missing sibling is an empty subtree. -/
def climb (empty : α) (size : Nat) : Nat → α → List (Option α) → α
  | _, current, [] => current
  | i, current, slot :: slots =>
      let sibling := slot.getD (emptyRoot node empty i)
      climb empty size (i + 1)
        (if size >>> i &&& 1 = 1 then node sibling current else node current sibling) slots

theorem shiftRight_and_one (size i : Nat) : size >>> i &&& 1 = size / 2 ^ i % 2 := by
  rw [Nat.and_one_is_mod, Nat.shiftRight_eq_div_pow]

/-- Above the last leaf `n` every node of the level is an empty root; the fold
then follows the path of leaf `n` to the root. -/
theorem climb_eq_root {empty : α} {size i n : Nat} {level : Nat → α} {slots : List (Option α)}
    (hf : Frontier node level n slots) (hn : n < 2 ^ slots.length)
    (hbits : size / 2 ^ i % 2 ^ slots.length = n)
    (hpad : ∀ j > n, level j = emptyRoot node empty i) :
    climb node empty size i (level n) slots = root node slots.length level := by
  induction slots generalizing i n level with
  | nil =>
      have hn0 : n = 0 := by simpa using hn
      rw [hn0]
      rfl
  | cons slot slots ih =>
      obtain ⟨hslot, hrest⟩ := hf
      have hpow : 2 ^ (slots.length + 1) = 2 * 2 ^ slots.length := by ring
      rw [List.length_cons, hpow] at hn
      rw [List.length_cons, hpow, Nat.mod_mul] at hbits
      have hbit : size >>> i &&& 1 = n % 2 := by
        rw [shiftRight_and_one]
        omega
      have hup : climb node empty size i (level n) (slot :: slots) =
          climb node empty size (i + 1) (parents node level (n / 2)) slots := by
        simp only [climb, hbit, hslot, parents]
        by_cases hodd : n % 2 = 1
        · simp only [hodd, if_true, Option.getD_some]
          rw [show 2 * (n / 2) = n - 1 by omega, show n - 1 + 1 = n by omega]
        · simp only [hodd, if_false, Option.getD_none]
          rw [show 2 * (n / 2) = n by omega, hpad (n + 1) (by omega)]
      have hpad' : ∀ j > n / 2, parents node level j = emptyRoot node empty (i + 1) := by
        intro j hj
        simp only [parents, emptyRoot]
        rw [hpad (2 * j) (by omega), hpad (2 * j + 1) (by omega)]
      have hbits' : size / 2 ^ (i + 1) % 2 ^ slots.length = n / 2 := by
        rw [pow_succ, ← Nat.div_div_eq_div_mul]
        omega
      rw [hup, ih hrest (by omega) hbits' hpad', List.length_cons, root_succ_eq_parents]

end NoirNet.Lib.PerfectTree
