import NoirNet.Lib.Padding
import NoirNet.Proofs.StateRoot

/-!
# What a tree root binds

The root is that of a padded window of `2 ^ 32` commitments.  It binds what is
behind the last full window, up to trailing commitments that are the empty leaf.

* `rootOf_eq`: the root of a tree after some appends;
* `visible_eq_iff`: what of the commitments the window shows;
* `root_binding_iff`: when two roots tell two sequences apart;
* `eq_of_rootOf_eq`: they do below the capacity, without empty leaves.
-/

namespace NoirNet.NoteCommitmentTree

open Lib

/-- The commitments behind the last full window, without trailing empty leaves. -/
def visible (commitments : List Hash32) : List Hash32 :=
  unpad emptyLeaf (commitments.drop (capacity * (commitments.length / capacity)))

theorem window_eq_getD (commitments : List Hash32) (j : Nat) :
    window commitments j =
      (commitments.drop (capacity * (commitments.length / capacity))).getD j emptyLeaf := by
  rw [window, List.getD_eq_getElem?_getD, List.getD_eq_getElem?_getD, List.getElem?_drop]

theorem window_ext_iff {commitments commitments' : List Hash32} :
    (∀ j < capacity, window commitments j = window commitments' j) ↔
      ∀ j, window commitments j = window commitments' j := by
  have hpos : 0 < capacity := by simp [capacity]
  constructor
  · intro h j
    by_cases hj : j < capacity
    · exact h j hj
    · have hlen := Nat.mod_lt commitments.length hpos
      have hlen' := Nat.mod_lt commitments'.length hpos
      rw [window_pad (by omega), window_pad (by omega)]
  · intro h j _
    exact h j

theorem visible_eq_iff {commitments commitments' : List Hash32} :
    visible commitments = visible commitments' ↔
      ∀ j < capacity, window commitments j = window commitments' j := by
  rw [window_ext_iff, visible, visible, unpad_eq_iff]
  simp only [window_eq_getD]

theorem visible_eq_self {commitments : List Hash32} (hlen : commitments.length < capacity)
    (hleaves : ∀ c ∈ commitments, c ≠ emptyLeaf) : visible commitments = commitments := by
  rw [visible, Nat.div_eq_of_lt hlen, Nat.mul_zero, List.drop_zero, unpad_eq_self hleaves]

theorem visible_eq_nil {commitments : List Hash32} (hlen : capacity ∣ commitments.length) :
    visible commitments = [] := by
  rw [visible, Nat.mul_div_cancel' hlen, List.drop_length]
  rfl

section

variable [Blake3]

def rootOf (commitments : List Hash32) : Hash32 :=
  (treeMachine.final start (commitments.map .append)).1.root

theorem rootOf_eq (commitments : List Hash32) :
    rootOf commitments =
      PerfectTree.root hashPair NOTE_COMMITMENT_TREE_DEPTH (window commitments) := by
  have happended : appendedBy (commitments.map .append) = commitments := by
    rw [appendedBy, List.filterMap_map]
    exact List.filterMap_some
  have hstores := (stores_run stores_start (commitments.map .append)).1
  rw [List.nil_append, happended] at hstores
  rw [rootOf, hstores.represents.root_eq]

/-- No pair of nodes of the one tree has the hash of another pair of the other. -/
def TreesCollisionFree (commitments commitments' : List Hash32) : Prop :=
  PerfectTree.CollisionFree hashPair
    (PerfectTree.combined hashPair NOTE_COMMITMENT_TREE_DEPTH (window commitments))
    (PerfectTree.combined hashPair NOTE_COMMITMENT_TREE_DEPTH (window commitments'))

variable {commitments commitments' : List Hash32}
  (hfree : TreesCollisionFree commitments commitments')

include hfree

theorem rootOf_eq_iff :
    rootOf commitments = rootOf commitments' ↔ visible commitments = visible commitments' := by
  rw [rootOf_eq, rootOf_eq, visible_eq_iff]
  constructor
  · exact PerfectTree.eq_of_root_eq hashPair hfree
  · exact PerfectTree.root_congr hashPair

/-- The roots tell two sequences apart exactly if these differ in what is visible, or
do not differ. -/
theorem root_binding_iff :
    (rootOf commitments = rootOf commitments' → commitments = commitments') ↔
      visible commitments ≠ visible commitments' ∨ commitments = commitments' := by
  rw [rootOf_eq_iff hfree]
  exact Decidable.imp_iff_not_or

theorem eq_of_rootOf_eq (hlen : commitments.length < capacity)
    (hlen' : commitments'.length < capacity) (hleaves : ∀ c ∈ commitments, c ≠ emptyLeaf)
    (hleaves' : ∀ c ∈ commitments', c ≠ emptyLeaf)
    (hroot : rootOf commitments = rootOf commitments') : commitments = commitments' := by
  have hvisible := (rootOf_eq_iff hfree).mp hroot
  rwa [visible_eq_self hlen hleaves, visible_eq_self hlen' hleaves'] at hvisible

end

/-! ## A full tree, and a commitment that is the empty leaf -/

def fullTree : List Hash32 := List.replicate capacity (fill 32 1)

theorem window_eq_nil {commitments : List Hash32} (h : commitments ∈ [[emptyLeaf], fullTree]) :
    window commitments = window [] := by
  have hvisible : visible commitments = visible [] := by
    have hnil : visible [] = [] := visible_eq_nil (dvd_zero capacity)
    rcases List.mem_pair.mp h with rfl | rfl
    · rw [hnil]
      decide
    · rw [hnil, visible_eq_nil]
      rw [fullTree, List.length_replicate]
  funext j
  exact window_ext_iff.mp (visible_eq_iff.mp hvisible) j

section

attribute [local instance] Blake3.edges

theorem collisionFree_nil {commitments : List Hash32} (h : commitments ∈ [[emptyLeaf], fullTree]) :
    TreesCollisionFree [] commitments := by
  rw [TreesCollisionFree, window_eq_nil h, ← window_emptyLeaf]
  exact collisionFree_edges 0 0

theorem hashPair_ne_zero {p : Hash32 × Hash32}
    (hp : p ∈ PerfectTree.combined hashPair NOTE_COMMITMENT_TREE_DEPTH (window [])) :
    hashPair p.1 p.2 ≠ emptyLeaf := by
  rw [window_nil] at hp
  obtain ⟨i, hi, rfl⟩ := PerfectTree.combined_const hashPair emptyLeaf hp
  intro hzero
  rw [hashPair_edges, emptyRoot_edges] at hzero
  have hbyte := congrArg (fun digest : Bytes32 => digest.getD 31 0) hzero
  have hempty : emptyLeaf.getD 31 0 = 0 := by decide
  simp only [getD_edge_last, hempty] at hbyte
  have hlevel := congrArg UInt8.toNat hbyte
  simp at hlevel
  rw [show NOTE_COMMITMENT_TREE_DEPTH = 32 from rfl] at hi
  omega

def Unbound (commitments : List Hash32) : Prop :=
  TreesCollisionFree [] commitments ∧
    (∀ p ∈ PerfectTree.combined hashPair NOTE_COMMITMENT_TREE_DEPTH (window commitments),
      hashPair p.1 p.2 ≠ emptyLeaf) ∧
    ¬ (rootOf [] = rootOf commitments → [] = commitments)

theorem unbound_of_mem {commitments : List Hash32} (hmem : commitments ∈ [[emptyLeaf], fullTree]) :
    Unbound commitments := by
  have hwindow := window_eq_nil hmem
  refine ⟨collisionFree_nil hmem, ?_, ?_⟩
  · rw [hwindow]
    intro p hp
    exact hashPair_ne_zero hp
  · intro hbinding
    have hempty : [] = commitments := hbinding (by rw [rootOf_eq, rootOf_eq, hwindow])
    rcases List.mem_pair.mp hmem with rfl | rfl
    · cases hempty
    · have hlength := congrArg List.length hempty
      rw [fullTree, List.length_replicate] at hlength
      exact absurd hlength (by decide)

theorem empty_roots_unbound : Unbound [emptyLeaf] ∧ Unbound fullTree :=
  ⟨unbound_of_mem (by simp), unbound_of_mem (by simp)⟩

theorem visible_append_emptyLeaf :
    visible [fill 32 5] = visible [fill 32 5, emptyLeaf] := by
  decide +kernel

theorem leaf_roots_bound :
    (rootOf [fill 32 5] = rootOf [fill 32 6] → ([fill 32 5] : List Hash32) = [fill 32 6]) ∧
      ¬ (rootOf [fill 32 5] = rootOf [fill 32 5, emptyLeaf] →
        ([fill 32 5] : List Hash32) = [fill 32 5, emptyLeaf]) := by
  have hleaves : TreesCollisionFree [fill 32 5] [fill 32 6] := collisionFree_edges 5 6
  have hpadded : TreesCollisionFree [fill 32 5] [fill 32 5, emptyLeaf] := by
    have hwindow : window [fill 32 5] = window [fill 32 5, emptyLeaf] := by
      funext j
      exact window_ext_iff.mp (visible_eq_iff.mp visible_append_emptyLeaf) j
    rw [TreesCollisionFree, ← hwindow]
    exact collisionFree_edges 5 5
  constructor
  · exact (root_binding_iff hleaves).mpr (.inl (by decide +kernel))
  · intro hbound
    rcases (root_binding_iff hpadded).mp hbound with hvisible | hequal
    · exact hvisible visible_append_emptyLeaf
    · exact absurd hequal (by decide)

end

end NoirNet.NoteCommitmentTree
