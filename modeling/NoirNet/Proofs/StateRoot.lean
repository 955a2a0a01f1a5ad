import Mathlib.Data.List.Flatten
import NoirNet.Consensus.BlockBuilder
import NoirNet.Proofs.NoteTree
import NoirNet.Storage.Frame

/-!
# The state root of a proposed block

`build_block` writes the root of the store it builds on into the header;
`apply_block` returns the root behind the body's outputs.  The two agree exactly
when the outputs change no leaf of the tree.
-/

namespace NoirNet

open Lib NoteCommitmentTree

namespace StateStore

variable [Blake3]

/-! ## The leaves of a reachable store -/

def leaves (store : StateStore) : List Hash32 :=
  (List.range store.tree.size).map fun i => (getCommitment store.db i).getD emptyLeaf

/-- The store's tree and database hold the commitments of the list. -/
abbrev Holds (leaves : List Hash32) (store : StateStore) : Prop :=
  Stores leaves (store.tree, store.db)

theorem Holds.leaves_eq {leaves : List Hash32} {store : StateStore} (h : Holds leaves store) :
    store.leaves = leaves := by
  have hsize : store.tree.size = leaves.length := h.represents.size_eq
  apply List.ext_getElem
  · simp [StateStore.leaves, hsize]
  · intro i hi hi'
    have hread : getCommitment store.db i = leaves[i]? := h.commitments_eq i
    simp [StateStore.leaves, hread, hi']

theorem Holds.appendCommitment {leaves : List Hash32} {store : StateStore}
    (h : Holds leaves store) (commitment : Hash32) :
    Holds (leaves ++ [commitment]) (store.appendCommitment commitment) where
  represents := (h.append commitment).represents
  openDb_eq := (h.append commitment).openDb_eq
  commitments_eq i := by
    have hread : (store.db.commitments.insert store.tree.size commitment)[i]? =
        (leaves ++ [commitment])[i]? := (h.append commitment).commitments_eq i
    show ((store.db.commitments.insert store.tree.size commitment).insert store.tree.size
      commitment)[i]? = _
    rw [← hread, Table.get_insert, Table.get_insert]
    split <;> rfl

theorem Holds.applyEffects (height : UInt64) {leaves : List Hash32} {store : StateStore}
    (h : Holds leaves store) (effects : List Effect) :
    ∃ leaves', Holds leaves' (store.applyEffects height effects).1 := by
  induction effects generalizing leaves store with
  | nil => exact ⟨leaves, h⟩
  | cons e effects ih =>
      cases e with
      | spend nullifier =>
          rw [StateStore.applyEffects]
          by_cases hspent : store.containsNullifier nullifier
          · rw [if_pos hspent]
            exact ⟨leaves, h⟩
          · rw [if_neg hspent]
            have hinsert : Holds leaves (store.insertNullifier nullifier height) := ⟨h.1, h.2, h.3⟩
            exact ih hinsert
      | output commitment => exact ih (h.appendCommitment commitment)

theorem Holds.step {leaves : List Hash32} {store : StateStore} (h : Holds leaves store)
    (op : StoreOp) : ∃ leaves', Holds leaves' (storeMachine.step store op).1 := by
  cases op with
  | pruneHistory keepLast =>
      obtain ⟨blocks, txs, heightHash, hdb⟩ := pruneHistory_fst store keepLast
      refine ⟨leaves, ?_⟩
      rw [show (storeMachine.step store (.pruneHistory keepLast)).1 =
        (store.pruneHistory keepLast).1 from rfl, hdb]
      exact ⟨h.1, h.2, h.3⟩
  | reopen =>
      have hsame : NoteCommitmentTree.openDb store.db = store.tree := h.openDb_eq
      refine ⟨leaves, ?_⟩
      show Stores leaves (NoteCommitmentTree.openDb store.db, store.db)
      rwa [hsame]
  | applyBlock block changes contracts =>
      rw [step_applyBlock_fst]
      obtain ⟨leaves', h'⟩ := h.applyEffects block.header.height block.effects
      cases hresult : (store.applyBlock block changes contracts).2 with
      | ok root =>
          rw [applyBlock_fst_of_ok hresult]
          exact ⟨leaves', h'.1, h'.2, h'.3⟩
      | error e =>
          rw [applyBlock_fst_of_error hresult]
          split
          · exact ⟨leaves', h'⟩
          · exact ⟨leaves, h⟩

theorem Reachable.holds {store : StateStore} (h : store.Reachable) : Holds store.leaves store := by
  obtain ⟨ops, rfl⟩ := h
  have hrun : ∃ leaves, Holds leaves (storeMachine.final empty ops) :=
    storeMachine.invariant_final (fun store => ∃ leaves, Holds leaves store)
      (fun _ op ⟨_, h⟩ => h.step op) ⟨[], stores_start⟩ ops
  obtain ⟨leaves, hleaves⟩ := hrun
  rwa [hleaves.leaves_eq]

end StateStore

/-! ## The proposed block -/

/-- Below the capacity of the tree only commitments to the empty leaf leave
every leaf as it was. -/
theorem window_append_iff {leaves commitments : List Hash32}
    (hroom : leaves.length + commitments.length < capacity) :
    (∀ j < capacity, window (leaves ++ commitments) j = window leaves j) ↔
      ∀ c ∈ commitments, c = emptyLeaf := by
  have hbefore (j : Nat) : window leaves j = leaves.getD j emptyLeaf := window_of_lt (by omega) j
  have hafter (j : Nat) :
      window (leaves ++ commitments) j = (leaves ++ commitments).getD j emptyLeaf :=
    window_of_lt (by simpa using hroom) j
  simp only [hbefore, hafter]
  constructor
  · intro hsame c hc
    obtain ⟨i, hi, rfl⟩ := List.getElem_of_mem hc
    have hat := hsame (leaves.length + i) (by omega)
    rwa [List.getD_append_right _ _ _ _ (by omega), Nat.add_sub_cancel_left,
      List.getD_eq_getElem _ _ hi, List.getD_eq_default _ _ (by omega)] at hat
  · intro hempty j _
    rcases Nat.lt_or_ge j leaves.length with hlt | hge
    · rw [List.getD_append _ _ _ _ hlt]
    · rw [List.getD_append_right _ _ _ _ hge, List.getD_eq_default leaves _ hge]
      rcases Nat.lt_or_ge (j - leaves.length) commitments.length with hlt | hge'
      · rw [List.getD_eq_getElem _ _ hlt]
        exact hempty _ (List.getElem_mem hlt)
      · rw [List.getD_eq_default _ _ hge']

section

variable [Blake3]

variable (store : StateStore) (txs : List Transaction) (proposer vrfOutput : Bytes32)
  (timestamp epoch : UInt64) (changes : Table Bytes Bytes) (contracts : List (Hash32 × Bytes))

theorem applyBlock_buildBlock (hfresh : store.Fresh (txs.flatMap fun tx =>
      tx.spends.map (·.nullifier))) :
    let block := BlockBuilder.buildBlock store txs proposer vrfOutput timestamp epoch
    ∃ root, (store.applyBlock block changes contracts).2 = .ok root ∧
      root = (block.commitments.foldl appended store.tree).root := by
  intro block
  have hsub : block.nullifiers.Sublist (txs.flatMap fun tx => tx.spends.map (·.nullifier)) :=
    (BlockBuilder.fillBlock_sublist 0 txs).flatMap _
  have hblock : store.Fresh block.nullifiers :=
    ⟨hfresh.1.sublist hsub, fun n hn => hfresh.2 n (hsub.subset hn)⟩
  have heffects : (store.applyEffects block.header.height block.effects).2 = .ok () := by
    rw [StateStore.applyEffects_ok_iff, Block.nullifiers_effects]
    exact hblock
  refine ⟨_, StateStore.applyBlock_ok_iff.mpr ⟨rfl, heffects, rfl⟩, ?_⟩
  rw [StateStore.stateRoot, StateStore.applyEffects_tree heffects, Block.commitments_effects]

/-- On a reachable store a proposal over fresh transactions is always applied.
The root that comes back is the header's exactly when the outputs that made it
into the block leave every leaf of the tree as it was; below the capacity of the
tree, exactly when all of them are commitments to the empty leaf. -/
theorem proposal_root_iff (hreach : store.Reachable)
    (hfresh : store.Fresh (txs.flatMap fun tx => tx.spends.map (·.nullifier)))
    (hfree : PerfectTree.CollisionFree hashPair
      (PerfectTree.combined hashPair NOTE_COMMITMENT_TREE_DEPTH (window (store.leaves ++
        (BlockBuilder.buildBlock store txs proposer vrfOutput timestamp epoch).commitments)))
      (PerfectTree.combined hashPair NOTE_COMMITMENT_TREE_DEPTH (window store.leaves))) :
    let block := BlockBuilder.buildBlock store txs proposer vrfOutput timestamp epoch
    let unchanged := ∀ j < capacity,
      window (store.leaves ++ block.commitments) j = window store.leaves j
    ((∃ root, (store.applyBlock block changes contracts).2 = .ok root ∧
        root = block.header.stateRoot) ↔ unchanged) ∧
      (store.leaves.length + block.commitments.length < capacity →
        (unchanged ↔ ∀ c ∈ block.commitments, c = emptyLeaf)) := by
  intro block unchanged
  refine ⟨?_, window_append_iff⟩
  obtain ⟨root, hok, hroot⟩ := applyBlock_buildBlock store txs proposer vrfOutput timestamp epoch
    changes contracts hfresh
  have hbefore : Represents store.leaves store.tree := hreach.holds.represents
  have hheader : block.header.stateRoot = store.tree.root := rfl
  rw [(hbefore.foldl block.commitments).root_eq] at hroot
  rw [hheader, hbefore.root_eq, hok]
  constructor
  · rintro ⟨root', hroot', heq⟩
    cases hroot'
    rw [hroot] at heq
    exact PerfectTree.eq_of_root_eq hashPair hfree heq
  · intro hsame
    exact ⟨root, rfl, hroot.trans (PerfectTree.root_congr hashPair hsame)⟩

end

/-! ## Proposals on the store of the genesis block -/

def afterGenesis [Blake3] : StateStore :=
  (StateStore.empty.applyBlock (Block.blank 0 (fill 32 0) []) ∅ []).1

def proposalAfterGenesis [Blake3] (txs : List Transaction) : Block :=
  BlockBuilder.buildBlock afterGenesis txs (fill 32 1) (fill 32 0) 0 1

theorem reachable_afterGenesis [Blake3] : afterGenesis.Reachable :=
  ⟨[.applyBlock (Block.blank 0 (fill 32 0) []) ∅ []], StateStore.step_applyBlock_fst _ _ _ _⟩

def oneOutput : List Transaction :=
  [Transaction.blank [] [OutputDescription.blank (fill 32 5)] []]

theorem fresh_oneOutput [Blake3] (store : StateStore) :
    store.Fresh (oneOutput.flatMap fun tx => tx.spends.map (·.nullifier)) :=
  ⟨List.nodup_nil, nofun⟩

theorem root_ne_of_oneOutput :
    letI := Blake3.sum
    ((proposalAfterGenesis oneOutput).commitments.foldl appended afterGenesis.tree).root ≠
      (proposalAfterGenesis oneOutput).header.stateRoot := by
  decide +kernel

theorem proposal_root_ne :
    letI := Blake3.sum
    afterGenesis.Reachable ∧ afterGenesis.hasBlocks = true ∧
      afterGenesis.Fresh (oneOutput.flatMap fun tx => tx.spends.map (·.nullifier)) ∧
      ∃ root, (afterGenesis.applyBlock (proposalAfterGenesis oneOutput) ∅ []).2 = .ok root ∧
        root ≠ (proposalAfterGenesis oneOutput).header.stateRoot := by
  let _ := Blake3.sum
  obtain ⟨root, hok, hroot⟩ := applyBlock_buildBlock afterGenesis oneOutput (fill 32 1) (fill 32 0)
    0 1 ∅ [] (fresh_oneOutput _)
  refine ⟨reachable_afterGenesis, rfl, fresh_oneOutput _, root, hok, ?_⟩
  rw [hroot]
  exact root_ne_of_oneOutput

/-! ### Trees with one leaf -/

theorem window_nil : window [] = fun _ => emptyLeaf := rfl

theorem window_singleton (c : Hash32) (j : Nat) :
    window [c] j = if j = 0 then c else emptyLeaf := by
  have hroom : [c].length < capacity := (by decide : 1 < capacity)
  rw [window_of_lt hroom]
  cases j <;> rfl

theorem window_emptyLeaf : window [emptyLeaf] = window [] := by
  funext j
  rw [window_singleton, ite_self, window_nil]

section

attribute [local instance] Blake3.edges

theorem hashPair_edges (left right : Hash32) :
    hashPair left right = edge (left.getD 0 0) (right.getD 31 0 + 1) := by
  have hlast : ("NoirNet_tree_node_v1".toUTF8.toList ++ left.toList ++ right.toList).getLastD 0 =
      right.getD 31 0 := by
    rw [List.getLastD_eq_getLast?, List.getLast?_append, List.getLast?_eq_getElem?,
      Vector.length_toList, List.getElem?_eq_getElem (by simp)]
    simp [Vector.getD]
  have hfirst : ("NoirNet_tree_node_v1".toUTF8.toList ++ left.toList ++ right.toList).getD 20 0 =
      left.getD 0 0 := by
    have htag : "NoirNet_tree_node_v1".toUTF8.toList.length = 20 := by decide +kernel
    rw [List.append_assoc, List.getD_append_right _ _ _ _ htag.le, htag,
      List.getD_append _ _ _ _ (by simp)]
    simp [Vector.getD]
  show edge (List.getD _ 20 0) (List.getLastD _ 0 + 1) = _
  rw [hlast, hfirst]

theorem emptyRoot_edges (d : Nat) :
    PerfectTree.emptyRoot hashPair emptyLeaf d = edge 0 (UInt8.ofNat d) := by
  induction d with
  | zero => decide
  | succ d ih =>
      rw [PerfectTree.emptyRoot, ih, hashPair_edges, getD_edge_first, getD_edge_last,
        UInt8.ofNat_add]
      rfl

theorem root_edges (leaf : Hash32) (d : Nat) :
    (PerfectTree.root hashPair d (window [leaf])).getD 0 0 = leaf.getD 0 0 := by
  induction d with
  | zero => rw [PerfectTree.root, window_singleton, if_pos rfl]
  | succ d ih => rw [PerfectTree.root, hashPair_edges, getD_edge_first, ih]

theorem collisionFree_edges (b b' : UInt8) :
    PerfectTree.CollisionFree hashPair
      (PerfectTree.combined hashPair NOTE_COMMITMENT_TREE_DEPTH (window [fill 32 b]))
      (PerfectTree.combined hashPair NOTE_COMMITMENT_TREE_DEPTH (window [fill 32 b'])) := by
  -- the left node of a pair is the root over this leaf or over the empty one
  have hpairs {b : UInt8} {p : Hash32 × Hash32} (hp : p ∈ PerfectTree.combined hashPair
      NOTE_COMMITMENT_TREE_DEPTH (window [fill 32 b])) :
      ∃ i < 32, ∃ a : UInt8, p.1 = PerfectTree.root hashPair i (window [fill 32 a]) ∧
        p.2 = PerfectTree.emptyRoot hashPair emptyLeaf i := by
    have hempty : ∀ j > 0, window [fill 32 b] j = emptyLeaf := by
      intro j hj
      rw [window_singleton, if_neg (Nat.ne_of_gt hj)]
    obtain ⟨i, hi, hleft | hleft, hright⟩ := PerfectTree.combined_single hashPair hempty hp
    · exact ⟨i, hi, b, hleft, hright⟩
    · refine ⟨i, hi, 0, ?_, hright⟩
      have hnone : window [fill 32 0] = fun _ => emptyLeaf := window_emptyLeaf
      rw [hleft, hnone, PerfectTree.root_const]
  intro p hp q hq heq
  obtain ⟨i, hi, a, hleft, hright⟩ := hpairs hp
  obtain ⟨j, hj, a', hleft', hright'⟩ := hpairs hq
  rw [hashPair_edges, hashPair_edges, hleft, hleft', hright, hright', emptyRoot_edges,
    emptyRoot_edges, root_edges, root_edges] at heq
  have hfirst := congrArg (fun digest : Bytes32 => digest.getD 0 0) heq
  have hlast := congrArg (fun digest : Bytes32 => digest.getD 31 0) heq
  simp only [getD_edge_first, getD_edge_last] at hfirst hlast
  have hbyte : a = a' := hfirst
  have hlevel : i = j := by
    have hlevels := congrArg UInt8.toNat ((UInt8.add_left_inj 1).mp hlast)
    have hsize : 32 < UInt8.size := by decide
    rwa [UInt8.toNat_ofNat_of_lt' (hi.trans hsize), UInt8.toNat_ofNat_of_lt' (hj.trans hsize)]
      at hlevels
  exact Prod.ext (by rw [hleft, hleft', hlevel, hbyte]) (by rw [hright, hright', hlevel])

def emptyOutput : List Transaction :=
  [Transaction.blank [SpendDescription.blank (fill 32 7)] [OutputDescription.blank emptyLeaf] []]

theorem proposal_root_outputs :
    (∃ root, (afterGenesis.applyBlock (proposalAfterGenesis emptyOutput) ∅ []).2 = .ok root ∧
        root = (proposalAfterGenesis emptyOutput).header.stateRoot) ∧
      ¬ ∃ root, (afterGenesis.applyBlock (proposalAfterGenesis oneOutput) ∅ []).2 = .ok root ∧
        root = (proposalAfterGenesis oneOutput).header.stateRoot := by
  have hempty := proposal_root_iff afterGenesis emptyOutput (fill 32 1) (fill 32 0) 0 1 ∅ []
    reachable_afterGenesis ⟨by decide, by decide +kernel⟩
    (show PerfectTree.CollisionFree hashPair
        (PerfectTree.combined hashPair NOTE_COMMITMENT_TREE_DEPTH (window [emptyLeaf]))
        (PerfectTree.combined hashPair NOTE_COMMITMENT_TREE_DEPTH (window [])) by
      rw [← window_emptyLeaf]
      exact collisionFree_edges 0 0)
  have hother := proposal_root_iff afterGenesis oneOutput (fill 32 1) (fill 32 0) 0 1 ∅ []
    reachable_afterGenesis (fresh_oneOutput _)
    (show PerfectTree.CollisionFree hashPair
        (PerfectTree.combined hashPair NOTE_COMMITMENT_TREE_DEPTH (window [fill 32 5]))
        (PerfectTree.combined hashPair NOTE_COMMITMENT_TREE_DEPTH (window [])) by
      rw [← window_emptyLeaf]
      exact collisionFree_edges 5 0)
  have hroom : (0 : Nat) + 1 < capacity := by decide
  exact ⟨hempty.1.mpr ((hempty.2 hroom).mpr (by decide +kernel)),
    fun hsame => absurd ((hother.2 hroom).mp (hother.1.mp hsame)) (by decide +kernel)⟩

end

end NoirNet
