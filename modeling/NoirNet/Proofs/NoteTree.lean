import NoirNet.Concrete
import NoirNet.Lib.Machine
import NoirNet.Storage.Database

/-!
# The incremental tree is the reference tree

The abstract value of a note commitment tree is the list of all commitments
appended so far.  The frontier has one slot a level, so it is a counter modulo
`2 ^ 32`: it stands for the commitments of the current window, the part of the
list behind the last multiple of `2 ^ 32`.

* `Represents.append`: an append extends the list;
* `Represents.root_eq`: the root is the root of the padded window;
* `treeRun_spec`: a run of appends and re-opens against the reference tree.
-/

namespace NoirNet.NoteCommitmentTree

open Lib

def capacity : Nat := 2 ^ NOTE_COMMITMENT_TREE_DEPTH

/-- The leaves of the complete tree for a list of commitments, padded. -/
def window (leaves : List Hash32) : Nat → Hash32 := fun j =>
  leaves.getD (capacity * (leaves.length / capacity) + j) emptyLeaf

theorem window_of_lt {leaves : List Hash32} (hlen : leaves.length < capacity) (j : Nat) :
    window leaves j = leaves.getD j emptyLeaf := by
  rw [window, Nat.div_eq_of_lt hlen, Nat.mul_zero, Nat.zero_add]

theorem window_pad {leaves : List Hash32} {j : Nat} (hj : leaves.length % capacity ≤ j) :
    window leaves j = emptyLeaf := by
  have hdiv := Nat.div_add_mod leaves.length capacity
  rw [window, List.getD_eq_default]
  omega

section Append

variable {leaves : List Hash32} (commitment : Hash32)

private theorem getD_concat (i : Nat) :
    (leaves ++ [commitment]).getD i emptyLeaf =
      if i = leaves.length then commitment else leaves.getD i emptyLeaf := by
  rcases Nat.lt_trichotomy i leaves.length with h | h | h
  · rw [if_neg (by omega), List.getD_append _ _ _ _ h]
  · subst h
    simp
  · rw [if_neg (by omega), List.getD_eq_default _ _ (by simp; omega),
      List.getD_eq_default _ _ (by omega)]

theorem window_concat (hroom : leaves.length % capacity + 1 < capacity) (j : Nat) :
    window (leaves ++ [commitment]) j =
      if j = leaves.length % capacity then commitment else window leaves j := by
  have hdiv : (leaves.length + 1) / capacity = leaves.length / capacity := by
    rw [Nat.succ_div, if_neg, Nat.add_zero]
    intro hdvd
    have hzero := Nat.mod_eq_zero_of_dvd hdvd
    rw [Nat.add_mod, Nat.mod_eq_of_lt (a := 1) (by omega), Nat.mod_eq_of_lt hroom] at hzero
    omega
  have hmod := Nat.div_add_mod leaves.length capacity
  simp only [window, List.length_append, List.length_singleton, hdiv]
  rw [getD_concat]
  congr 1
  apply propext
  constructor <;> intro h <;> omega

end Append

/-! ## The abstract value -/

section

variable [Blake3]

/-- The tree holds the commitments of the list. -/
structure Represents (leaves : List Hash32) (tree : NoteCommitmentTree) : Prop where
  size_eq : tree.size = leaves.length
  frontier : PerfectTree.Frontier hashPair (window leaves) (leaves.length % capacity)
    tree.frontier.val

theorem represents_empty : Represents [] (openDb {}) where
  size_eq := rfl
  frontier := PerfectTree.frontier_empty hashPair _ NOTE_COMMITMENT_TREE_DEPTH

theorem Represents.append {leaves : List Hash32} {tree : NoteCommitmentTree}
    (h : Represents leaves tree) (commitment : Hash32) :
    Represents (leaves ++ [commitment]) (tree.appended commitment) where
  size_eq := by
    rw [List.length_append]
    exact congrArg (· + 1) h.size_eq
  frontier := by
    have hpush (level : Nat → Hash32)
        (hlevel : ∀ j < leaves.length % capacity, window leaves j = level j)
        (hnew : level (leaves.length % capacity) = commitment) :
        PerfectTree.Frontier hashPair level (leaves.length % capacity + 1)
          (tree.appended commitment).frontier.val := by
      have hpushed := PerfectTree.frontier_push hashPair
        (PerfectTree.frontier_congr hashPair hlevel h.frontier)
      rwa [hnew] at hpushed
    have hmod : (leaves ++ [commitment]).length % capacity =
        (leaves.length % capacity + 1) % capacity := by
      rw [List.length_append, List.length_singleton, Nat.mod_add_mod]
    rw [hmod]
    by_cases hroom : leaves.length % capacity + 1 < capacity
    · rw [Nat.mod_eq_of_lt hroom]
      apply hpush
      · intro j hj
        rw [window_concat commitment hroom, if_neg (by omega)]
      · rw [window_concat commitment hroom, if_pos rfl]
    · -- the window is full: the carry runs off the top and every slot is free again
      have hpos : 0 < capacity := by simp [capacity]
      have hlt := Nat.mod_lt leaves.length hpos
      have hfull : leaves.length % capacity + 1 = 2 ^ NOTE_COMMITMENT_TREE_DEPTH := by
        show _ = capacity
        omega
      have hcarry := hpush
        (fun j => if j = leaves.length % capacity then commitment else window leaves j)
        (fun j hj => by rw [if_neg (by omega)]) (by rw [if_pos rfl])
      rw [hfull] at hcarry ⊢
      rw [show 2 ^ NOTE_COMMITMENT_TREE_DEPTH % capacity = 0 from Nat.mod_self _]
      exact PerfectTree.frontier_overflow hashPair (tree.appended commitment).frontier.property
        hcarry

theorem Represents.foldl {leaves : List Hash32} {tree : NoteCommitmentTree}
    (h : Represents leaves tree) (commitments : List Hash32) :
    Represents (leaves ++ commitments) (commitments.foldl appended tree) := by
  induction commitments generalizing leaves tree with
  | nil => simpa using h
  | cons commitment commitments ih =>
      rw [List.append_cons]
      exact ih (h.append commitment)

theorem Represents.root_eq {leaves : List Hash32} {tree : NoteCommitmentTree}
    (h : Represents leaves tree) :
    tree.root = PerfectTree.root hashPair NOTE_COMMITMENT_TREE_DEPTH (window leaves) := by
  have hlen := tree.frontier.property
  have hempty : window leaves (leaves.length % capacity) = emptyLeaf := window_pad le_rfl
  have hpos : 0 < capacity := by simp [capacity]
  have hclimb : PerfectTree.climb hashPair emptyLeaf tree.size 0
      (window leaves (leaves.length % capacity)) tree.frontier.val =
        PerfectTree.root hashPair tree.frontier.val.length (window leaves) := by
    apply PerfectTree.climb_eq_root hashPair h.frontier
    · rw [hlen]
      exact Nat.mod_lt _ hpos
    · rw [hlen, h.size_eq, Nat.pow_zero, Nat.div_one]
      rfl
    · intro j hj
      exact window_pad (by omega)
  rw [hempty, hlen] at hclimb
  exact hclimb

end

/-! ## Runs of the tree -/

inductive TreeOp where
  | append (commitment : Bytes32)
  | reopen

/-- The tree and the database behind it; `append` emits the index it returns. -/
def treeMachine [Blake3] : Machine (NoteCommitmentTree × Db) TreeOp Nat where
  step
    | (tree, db), .append commitment =>
        let (leafIndex, tree, db) := tree.append db commitment
        ((tree, db), [leafIndex])
    | (_, db), .reopen => ((openDb db, db), [])

def start : NoteCommitmentTree × Db := (openDb {}, {})

def appendedBy (ops : List TreeOp) : List Bytes32 :=
  ops.filterMap fun
    | .append commitment => some commitment
    | .reopen => none

section

variable [Blake3]

/-- The tree in memory is the tree in the database, and the database lists the
same commitments. -/
structure Stores (leaves : List Hash32) (s : NoteCommitmentTree × Db) : Prop where
  represents : Represents leaves s.1
  openDb_eq : openDb s.2 = s.1
  commitments_eq : ∀ i, getCommitment s.2 i = leaves[i]?

theorem stores_start : Stores [] start where
  represents := represents_empty
  openDb_eq := rfl
  commitments_eq _ := by
    show (∅ : Table Nat Hash32)[_]? = _
    simp

theorem Stores.append {leaves : List Hash32} {s : NoteCommitmentTree × Db}
    (h : Stores leaves s) (commitment : Bytes32) :
    Stores (leaves ++ [commitment]) (treeMachine.step s (.append commitment)).1 where
  represents := h.represents.append commitment
  openDb_eq := openDb_append s.1 s.2 commitment
  commitments_eq i := by
    show (s.2.commitments.insert s.1.size commitment)[i]? = _
    have hold : s.2.commitments[i]? = leaves[i]? := h.commitments_eq i
    rw [Table.get_insert, h.represents.size_eq, hold]
    by_cases hi : leaves.length = i
    · subst hi
      simp
    · rw [if_neg hi]
      rcases Nat.lt_or_ge i leaves.length with hlt | hge
      · rw [List.getElem?_append_left hlt]
      · rw [List.getElem?_eq_none hge, List.getElem?_eq_none (by simp; omega)]

theorem Stores.reopen {leaves : List Hash32} {s : NoteCommitmentTree × Db}
    (h : Stores leaves s) : Stores leaves (treeMachine.step s .reopen).1 := by
  have hsame : (treeMachine.step s .reopen).1 = s := Prod.ext h.openDb_eq rfl
  rwa [hsame]

theorem stores_run {leaves : List Hash32} {s : NoteCommitmentTree × Db} (h : Stores leaves s)
    (ops : List TreeOp) :
    Stores (leaves ++ appendedBy ops) (treeMachine.final s ops) ∧
      treeMachine.outputs s ops = List.range' leaves.length (appendedBy ops).length := by
  induction ops generalizing leaves s with
  | nil => exact ⟨by simpa [appendedBy] using h, rfl⟩
  | cons op ops ih =>
      cases op with
      | append commitment =>
          obtain ⟨hstores, houtputs⟩ := ih (h.append commitment)
          have hindex : (treeMachine.step s (.append commitment)).2 = [leaves.length] := by
            rw [← h.represents.size_eq]
            rfl
          rw [Machine.final_cons, Machine.outputs_cons, hindex, houtputs]
          constructor
          · simpa [appendedBy] using hstores
          · simp [appendedBy, List.range'_succ]
      | reopen =>
          have hnone : (treeMachine.step s .reopen).2 = [] := rfl
          rw [Machine.final_cons, Machine.outputs_cons, hnone]
          exact ih h.reopen

/-- A run of fewer than `2 ^ 32` appends, re-opened at will: the root is the
root of the reference tree, each append returns its leaf's index, and every
index reads back the commitment appended there. -/
theorem treeRun_spec (ops : List TreeOp) (hlen : (appendedBy ops).length < 2 ^ 32) :
    (treeMachine.final start ops).1.root =
        PerfectTree.root hashPair NOTE_COMMITMENT_TREE_DEPTH
          (fun i => (appendedBy ops).getD i emptyLeaf) ∧
      treeMachine.outputs start ops = List.range (appendedBy ops).length ∧
      ∀ i, getCommitment (treeMachine.final start ops).2 i = (appendedBy ops)[i]? := by
  obtain ⟨hstores, houtputs⟩ := stores_run stores_start ops
  rw [List.nil_append] at hstores
  refine ⟨?_, ?_, hstores.commitments_eq⟩
  · rw [hstores.represents.root_eq, funext (window_of_lt hlen)]
  · rw [houtputs, List.range_eq_range']
    rfl

end

theorem treeRun_spec_reopened :
    letI := Blake3.sum
    let ops := [TreeOp.append (fill 32 1), .reopen, .append (fill 32 2), .append (fill 32 3)]
    (appendedBy ops).length < 2 ^ 32 ∧
      (treeMachine.final start ops).1.root =
        PerfectTree.root hashPair NOTE_COMMITMENT_TREE_DEPTH
          (fun i => (appendedBy ops).getD i emptyLeaf) ∧
      treeMachine.outputs start ops = List.range (appendedBy ops).length ∧
      ∀ i, getCommitment (treeMachine.final start ops).2 i = (appendedBy ops)[i]? :=
  letI := Blake3.sum
  ⟨by decide, treeRun_spec _ (by decide)⟩

end NoirNet.NoteCommitmentTree
