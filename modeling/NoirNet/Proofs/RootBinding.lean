import NoirNet.Consensus.Contracts
import NoirNet.Proofs.LedgerRoots
import NoirNet.Proofs.Replay

/-!
# What the state root says about the state

`state_root` is the root of the note commitments and of nothing else.  A summary
of a run keeps what execution reads, without the tree and the tables of blocks;
the executor refines it.

* `Refines.step`: one call of `execute_and_apply_block`;
* `stateRoot_eq_iff`: equal roots are equal commitments;
* `root_commits_iff`: two runs, and what equal roots leave open.
-/

namespace NoirNet

open Lib NoteCommitmentTree

/-! ## The summary of a run -/

structure Summary where
  chainHeight : Option UInt64 := none
  commitments : List Hash32 := []
  spent : List Hash32 := []
  contracts : Table Hash32 Bytes := ∅
  contractState : Table Bytes Bytes := ∅

namespace Summary

/-- The body of a block, up to a nullifier that is already spent. -/
def absorb : Summary → List Effect → Summary × Bool
  | summary, [] => (summary, true)
  | summary, .spend nullifier :: effects =>
      if summary.spent.contains nullifier then (summary, false)
      else absorb { summary with spent := nullifier :: summary.spent } effects
  | summary, .output commitment :: effects =>
      absorb { summary with commitments := summary.commitments ++ [commitment] } effects

def expectedHeight (summary : Summary) : UInt64 :=
  match summary.chainHeight with
  | some height => height + 1
  | none => 0

def store (summary : Summary) : StateStore :=
  StateStore.openDb { contracts := summary.contracts, contractState := summary.contractState }

def commit (summary : Summary) (block : Block) (effects : ContractEffects) : Summary :=
  { summary with
    chainHeight := some block.header.height
    contracts := effects.newContracts.foldl (fun t c => t.insert c.1 c.2) summary.contracts
    contractState := Table.overlay summary.contractState effects.contractStateChanges }

variable [Blake3] [Nova]

open Classical in
noncomputable def step (summary : Summary) (e : Execution) : Summary :=
  if Passes e.isValidator e.now e.block ∧ e.block.header.height = summary.expectedHeight then
    match summary.absorb e.block.effects with
    | (behind, true) => behind.commit e.block (blockEffects e.vm summary.store e.block)
    | (behind, false) => behind
  else summary

noncomputable def of (run : List Execution) : Summary := run.foldl step {}

end Summary

/-! ## The executor refines the summary -/

section

variable [Blake3]

structure Refines (store : StateStore) (summary : Summary) : Prop where
  chainHeight : store.db.chainHeight = summary.chainHeight
  holds : store.Holds summary.commitments
  spent : ∀ n, store.containsNullifier n ↔ n ∈ summary.spent
  contracts : store.SameContracts summary.store

theorem refines_empty : Refines StateStore.empty {} where
  chainHeight := rfl
  holds := stores_start
  spent n := by
    show (∅ : Table Hash32 UInt64)[n]?.isSome ↔ _
    simp
  contracts := ⟨rfl, rfl⟩

section

variable {store : StateStore} {summary : Summary} (h : Refines store summary)

include h

theorem Refines.expectedHeight : store.expectedHeight = summary.expectedHeight := by
  rw [StateStore.expectedHeight, StateStore.hasBlocks, StateStore.getChainHeight, h.chainHeight,
    Summary.expectedHeight]
  cases summary.chainHeight <;> rfl

theorem Refines.insertNullifier (nullifier : Hash32) (height : UInt64) :
    Refines (store.insertNullifier nullifier height)
      { summary with spent := nullifier :: summary.spent } where
  chainHeight := h.chainHeight
  holds := ⟨h.holds.1, h.holds.2, h.holds.3⟩
  spent n := by
    rw [StateStore.containsNullifier_insertNullifier, h.spent, List.mem_cons]
  contracts := ⟨h.contracts.1, h.contracts.2⟩

theorem Refines.appendCommitment (commitment : Hash32) :
    Refines (store.appendCommitment commitment)
      { summary with commitments := summary.commitments ++ [commitment] } where
  chainHeight := h.chainHeight
  holds := h.holds.appendCommitment commitment
  spent := h.spent
  contracts := ⟨h.contracts.1, h.contracts.2⟩

/-- The body goes equally far, and to the same state. -/
theorem Refines.absorb (height : UInt64) (effects : List Effect) :
    Refines (store.applyEffects height effects).1 (summary.absorb effects).1 ∧
      ((store.applyEffects height effects).2 = .ok () ↔ (summary.absorb effects).2 = true) := by
  induction effects generalizing store summary with
  | nil => exact ⟨h, by simp [StateStore.applyEffects, Summary.absorb]⟩
  | cons e effects ih =>
      cases e with
      | spend nullifier =>
          rw [StateStore.applyEffects, Summary.absorb]
          have hcontains :
              store.containsNullifier nullifier ↔ summary.spent.contains nullifier := by
            rw [h.spent, List.contains_iff_mem]
          by_cases hspent : summary.spent.contains nullifier
          · rw [if_pos hspent, if_pos (hcontains.mpr hspent)]
            exact ⟨h, by simp⟩
          · rw [if_neg hspent, if_neg (mt hcontains.mp hspent)]
            exact ih (h.insertNullifier nullifier height)
      | output commitment => exact ih (h.appendCommitment commitment)

theorem Refines.commit (block : Block) (effects : ContractEffects) :
    Refines (store.finishBlock block effects.contractStateChanges effects.newContracts).1
      (summary.commit block effects) where
  chainHeight := rfl
  holds := ⟨h.holds.1, h.holds.2, h.holds.3⟩
  spent := h.spent
  contracts := by
    have hfold : effects.contractStateChanges.foldl (fun state key value => state.insert key value)
        store.db.contractState =
          Table.overlay store.db.contractState effects.contractStateChanges :=
      Std.ExtTreeMap.foldl_eq_foldl_toList
    have hcode : store.db.contracts = summary.contracts := h.contracts.1
    have hstate : store.db.contractState = summary.contractState := h.contracts.2
    rw [hstate] at hfold
    constructor
    · show effects.newContracts.foldl _ store.db.contracts = _
      rw [hcode]
      rfl
    · show effects.contractStateChanges.foldl _ store.db.contractState = _
      rw [hstate]
      exact hfold

end

variable [Nova]

omit [Nova] in
theorem blockEffects_congr (vm : WasmRuntime) {store store' : StateStore}
    (h : store.SameContracts store') (block : Block) :
    blockEffects vm store block = blockEffects vm store' block := by
  rw [blockEffects, blockEffects, ContractEffects.foldl_executeTransaction,
    ContractEffects.foldl_executeTransaction]
  exact ContractEffects.foldl_perform_congr vm (fun action _ => h.agree action.contractId) {}

theorem Refines.step {s : StateStore × PrivateMempool} {summary : Summary}
    (h : Refines s.1 summary) (e : Execution) :
    Refines (executorMachine.step s e).1.1 (summary.step e) := by
  rw [Summary.step]
  by_cases hpass : Passes e.isValidator e.now e.block
  · rw [step_fst_of_passes hpass, applyExecuted]
    by_cases hheight : e.block.header.height = summary.expectedHeight
    · rw [if_pos ⟨hpass, hheight⟩,
        StateStore.applyBlock_of_height_eq (by rw [hheight, h.expectedHeight]),
        blockEffects_congr e.vm h.contracts]
      obtain ⟨hbody, hok⟩ := h.absorb e.block.header.height e.block.effects
      cases happly : s.1.applyEffects e.block.header.height e.block.effects with
      | mk store result =>
          cases habsorb : summary.absorb e.block.effects with
          | mk behind through =>
              rw [happly, habsorb] at hbody hok
              cases result with
              | error error =>
                  cases through with
                  | true => simp at hok
                  | false => exact hbody
              | ok u =>
                  cases through with
                  | true => exact hbody.commit e.block _
                  | false => simp at hok
    · have hne : e.block.header.height ≠ s.1.expectedHeight := by rwa [h.expectedHeight]
      rw [if_neg (fun hboth => hheight hboth.2), StateStore.applyBlock_of_height_ne hne]
      exact h
  · rw [step_fst_of_not_passes hpass, if_neg (fun hboth => hpass hboth.1)]
    exact h

theorem refines_run {s : StateStore × PrivateMempool} {summary : Summary}
    (h : Refines s.1 summary) (run : List Execution) :
    Refines (executorMachine.final s run).1 (run.foldl Summary.step summary) := by
  induction run generalizing s summary with
  | nil => exact h
  | cons e run ih => exact ih (h.step e)

/-! ## What equal roots say -/

structure SameState (store store' : StateStore) : Prop where
  nullifiers : ∀ n, store.containsNullifier n ↔ store'.containsNullifier n
  contracts : store.db.contracts = store'.db.contracts
  contractState : store.db.contractState = store'.db.contractState

namespace Summary

/-- Equally many blocks, up to the size of the height, and the same leaves of the tree. -/
structure SameLeaves (summary summary' : Summary) : Prop where
  chainHeight : summary.chainHeight.getD 0 = summary'.chainHeight.getD 0
  leaves : ∀ j < capacity, window summary.commitments j = window summary'.commitments j

structure SameEffects (summary summary' : Summary) : Prop where
  spent : ∀ n, n ∈ summary.spent ↔ n ∈ summary'.spent
  contracts : summary.contracts = summary'.contracts
  contractState : summary.contractState = summary'.contractState

abbrev CollisionFree (summary summary' : Summary) : Prop :=
  PerfectTree.CollisionFree hashPair
    (PerfectTree.combined hashPair NOTE_COMMITMENT_TREE_DEPTH (window summary.commitments))
    (PerfectTree.combined hashPair NOTE_COMMITMENT_TREE_DEPTH (window summary'.commitments))

end Summary

section

variable {store store' : StateStore} {summary summary' : Summary}
  (h : Refines store summary) (h' : Refines store' summary')

include h h'

omit [Nova] in
theorem stateRoot_eq_iff (hfree : summary.CollisionFree summary') :
    store.stateRoot = store'.stateRoot ↔
      ∀ j < capacity, window summary.commitments j = window summary'.commitments j := by
  rw [StateStore.stateRoot, StateStore.stateRoot, h.holds.represents.root_eq,
    h'.holds.represents.root_eq]
  exact ⟨PerfectTree.eq_of_root_eq hashPair hfree, PerfectTree.root_congr hashPair⟩

omit [Nova] in
theorem sameState_iff : SameState store store' ↔ summary.SameEffects summary' := by
  have hcode : store.db.contracts = summary.contracts := h.contracts.1
  have hstate : store.db.contractState = summary.contractState := h.contracts.2
  have hcode' : store'.db.contracts = summary'.contracts := h'.contracts.1
  have hstate' : store'.db.contractState = summary'.contractState := h'.contracts.2
  constructor
  · rintro ⟨hspent, hcontracts, hentries⟩
    refine ⟨?_, by rw [← hcode, hcontracts, hcode'], by rw [← hstate, hentries, hstate']⟩
    intro n
    rw [← h.spent, ← h'.spent]
    exact hspent n
  · rintro ⟨hspent, hcontracts, hentries⟩
    refine ⟨?_, by rw [hcode, hcontracts, hcode'], by rw [hstate, hentries, hstate']⟩
    intro n
    rw [h.spent, h'.spent]
    exact hspent n

end

/-- For two runs of `execute_and_apply_block` on empty databases, equal heights and roots
mean equal nullifiers, code and contract state exactly when the runs themselves differ in
their heights or their commitments, or spend, deploy and write the same. -/
theorem root_commits_iff (run run' : List Execution) (mempool mempool' : PrivateMempool)
    (hfree : (Summary.of run).CollisionFree (Summary.of run')) :
    let store := (executorMachine.final (StateStore.empty, mempool) run).1
    let store' := (executorMachine.final (StateStore.empty, mempool') run').1
    (store.getChainHeight = store'.getChainHeight → store.stateRoot = store'.stateRoot →
        SameState store store') ↔
      ((Summary.of run).SameLeaves (Summary.of run') →
        (Summary.of run).SameEffects (Summary.of run')) := by
  intro store store'
  have h : Refines store (Summary.of run) := refines_run refines_empty run
  have h' : Refines store' (Summary.of run') := refines_run refines_empty run'
  have hheight : store.getChainHeight = store'.getChainHeight ↔
      (Summary.of run).chainHeight.getD 0 = (Summary.of run').chainHeight.getD 0 := by
    rw [StateStore.getChainHeight, StateStore.getChainHeight, h.chainHeight, h'.chainHeight]
  rw [hheight, stateRoot_eq_iff h h' hfree, sameState_iff h h']
  exact ⟨fun hall hsame => hall hsame.1 hsame.2,
    fun hall hheights hleaves => hall ⟨hheights, hleaves⟩⟩

end

/-! ## A root that says nothing about the code -/

def WasmRuntime.idle : WasmRuntime := fun _ _ _ _ => some ⟨∅⟩

def firstBlock (txs : List Transaction) : Execution where
  vm := WasmRuntime.idle
  isValidator := false
  now := 0
  block :=
    { Block.blank 0 (fill 32 0) txs with
      header := { BlockHeader.blank 0 (fill 32 0) with stateRoot := emptyRoot } }

section

variable [Blake3] [Nova] {run : List Execution} {mempool : PrivateMempool}

theorem leaves_final : (executorMachine.final (StateStore.empty, mempool) run).1.leaves =
    (Summary.of run).commitments := by
  have h : Refines (executorMachine.final (StateStore.empty, mempool) run).1 (Summary.of run) :=
    refines_run refines_empty run
  exact h.holds.leaves_eq

theorem stateRoot_eq_of_leaves
    (hleaves : (executorMachine.final (StateStore.empty, mempool) run).1.leaves = []) :
    (executorMachine.final (StateStore.empty, mempool) run).1.stateRoot =
      PerfectTree.root hashPair NOTE_COMMITMENT_TREE_DEPTH (window []) := by
  have h : Refines (executorMachine.final (StateStore.empty, mempool) run).1 (Summary.of run) :=
    refines_run refines_empty run
  rw [StateStore.stateRoot, h.holds.represents.root_eq, ← leaves_final, hleaves]

end

section

attribute [local instance] Blake3.sum Nova.rejecting

theorem root_without_code :
    let store := (executorMachine.final (StateStore.empty, {}) [firstBlock []]).1
    let store' := (executorMachine.final (StateStore.empty, {}) [firstBlock [deployment]]).1
    store.getChainHeight = store'.getChainHeight ∧ store.stateRoot = store'.stateRoot ∧
      ¬ SameState store store' := by
  refine ⟨by decide +kernel, ?_, fun hsame => ?_⟩
  · rw [stateRoot_eq_of_leaves (by decide +kernel), stateRoot_eq_of_leaves (by decide +kernel)]
  · have hcode := congrArg (fun t : Table Hash32 Bytes => t[blake3Of [1]]?) hsame.contracts
    revert hcode
    decide +kernel

end

section

attribute [local instance] Blake3.edges Nova.rejecting

def outputBlock (commitment code : UInt8) : Execution :=
  firstBlock [{ deployment with
    outputs := [OutputDescription.blank (fill 32 commitment)], deployContract := some [code] }]

theorem refines_outputBlock (commitment code : UInt8) :
    Refines (executorMachine.final (StateStore.empty, {}) [outputBlock commitment code]).1
      (Summary.of [outputBlock commitment code]) :=
  refines_run refines_empty _

theorem leaves_outputBlock :
    (∀ code ∈ [(1 : UInt8), 2], (executorMachine.final (StateStore.empty, {})
        [outputBlock 5 code]).1.leaves = [fill 32 5]) ∧
      (executorMachine.final (StateStore.empty, {}) [outputBlock 6 2]).1.leaves =
        [fill 32 6] := by
  decide +kernel

theorem root_commits_outputs :
    let store := (executorMachine.final (StateStore.empty, {}) [outputBlock 5 1]).1
    let store' := (executorMachine.final (StateStore.empty, {}) [outputBlock 6 2]).1
    let store'' := (executorMachine.final (StateStore.empty, {}) [outputBlock 5 2]).1
    (store.getChainHeight = store'.getChainHeight → store.stateRoot = store'.stateRoot →
        SameState store store') ∧
      ¬ (store.getChainHeight = store''.getChainHeight → store.stateRoot = store''.stateRoot →
        SameState store store'') := by
  intro store store' store''
  have hfirst : (Summary.of [outputBlock 5 1]).commitments = [fill 32 5] :=
    leaves_final.symm.trans (leaves_outputBlock.1 1 (by decide))
  have hsecond : (Summary.of [outputBlock 6 2]).commitments = [fill 32 6] :=
    leaves_final.symm.trans leaves_outputBlock.2
  have hthird : (Summary.of [outputBlock 5 2]).commitments = [fill 32 5] :=
    leaves_final.symm.trans (leaves_outputBlock.1 2 (by decide))
  have hfree : (Summary.of [outputBlock 5 1]).CollisionFree (Summary.of [outputBlock 6 2]) := by
    rw [Summary.CollisionFree, hfirst, hsecond]
    exact collisionFree_edges 5 6
  have hfree' : (Summary.of [outputBlock 5 1]).CollisionFree (Summary.of [outputBlock 5 2]) := by
    rw [Summary.CollisionFree, hfirst, hthird]
    exact collisionFree_edges 5 5
  constructor
  · refine (root_commits_iff _ _ _ _ hfree).mpr fun hsame => ?_
    have hleaf := hsame.leaves 0 (by decide)
    rw [hfirst, hsecond] at hleaf
    exact absurd hleaf (by decide +kernel)
  · intro hall
    have hheight (code : UInt8) (hcode : code ∈ [(1 : UInt8), 2]) :
        (Summary.of [outputBlock 5 code]).chainHeight = some 0 := by
      rw [← (refines_outputBlock 5 code).chainHeight]
      revert code
      decide +kernel
    have hcode (code : UInt8) : (Summary.of [outputBlock 5 code]).contracts =
        (executorMachine.final (StateStore.empty, {}) [outputBlock 5 code]).1.db.contracts :=
      (refines_outputBlock 5 code).contracts.1.symm
    have hsame := (root_commits_iff _ _ _ _ hfree').mp hall
      ⟨by rw [hheight 1 (by decide), hheight 2 (by decide)], fun j _ => by rw [hfirst, hthird]⟩
    have hcontracts := hsame.contracts
    rw [hcode, hcode] at hcontracts
    have hentry := congrArg (fun t : Table Hash32 Bytes => t[blake3Of [1]]?) hcontracts
    revert hentry
    decide +kernel

end

end NoirNet
