import NoirNet.Consensus.Concrete
import NoirNet.Proofs.Retention

/-!
# The next height

Three functions work out the height of the next block.  The store and the block
builder ask whether there are blocks and begin at 0; the consensus loop adds one
to the chain height, which is 0 also when there are none.

* `hasBlocks_final_iff`: there are blocks once one has been applied;
* `next_heights_iff`: when the three agree.
-/

namespace NoirNet

open Lib StateStore

variable [Bls] [Blake3]

/-- The consensus loop, the block builder and the store go for the same height. -/
structure HeightsAgree (store : StateStore) : Prop where
  round : ∀ (engine : ConsensusEngine) (generation : Nat), engine.stateStore = store →
    (engine.enterState generation).height = store.expectedHeight
  built : ∀ (txs : List Transaction) (proposer vrfOutput : Bytes32) (timestamp epoch : UInt64),
    (BlockBuilder.buildBlock store txs proposer vrfOutput timestamp epoch).header.height =
      store.expectedHeight

theorem heightsAgree_iff (store : StateStore) : HeightsAgree store ↔ store.hasBlocks := by
  constructor
  · intro h
    have hround := h.round (ConsensusEngine.new store {} none) 0 rfl
    cases hblocks : store.hasBlocks with
    | true => rfl
    | false =>
        have hchain : store.getChainHeight = 0 := by
          rw [hasBlocks, Option.isSome_eq_false_iff, Option.isNone_iff_eq_none] at hblocks
          rw [getChainHeight, hblocks]
          rfl
        have hone : ((ConsensusEngine.new store {} none).enterState 0).height =
            store.getChainHeight + 1 := rfl
        rw [hone, hchain, expectedHeight, hblocks, if_neg Bool.false_ne_true] at hround
        exact absurd hround (by decide)
  · intro hblocks
    constructor
    · rintro engine generation rfl
      rw [expectedHeight, if_pos hblocks]
      rfl
    · intro txs proposer vrfOutput timestamp epoch
      rfl

/-! ## Runs -/

omit [Bls] in
theorem hasBlocks_step_iff (store : StateStore) (op : StoreOp) :
    (storeMachine.step store op).1.hasBlocks ↔
      store.hasBlocks ∨ (storeMachine.step store op).2 ≠ [] := by
  cases op with
  | applyBlock block changes contracts =>
      by_cases haccept : store.Accepts block
      · rw [step_applyBlock_of_accepts haccept, hasBlocks, chainHeight_applyBlock haccept]
        simp
      · obtain ⟨hnone, _, _, _, _, _, hsame⟩ :=
          step_applyBlock_of_not_accepts haccept changes contracts
        rw [hnone, hsame]
        simp [hasBlocks]
  | pruneHistory keepLast =>
      obtain ⟨_, _, _, hpruned⟩ := pruneHistory_fst store keepLast
      have hstep : (storeMachine.step store (.pruneHistory keepLast)) =
          ((store.pruneHistory keepLast).1, []) := rfl
      rw [hstep, hpruned]
      simp [hasBlocks]
  | reopen =>
      have hstep : storeMachine.step store .reopen = (openDb store.db, []) := rfl
      rw [hstep]
      simp [hasBlocks, openDb]

omit [Bls] in
theorem hasBlocks_final_iff (ops : List StoreOp) :
    (storeMachine.final StateStore.empty ops).hasBlocks ↔
      storeMachine.outputs StateStore.empty ops ≠ [] := by
  induction ops using List.reverseRecOn with
  | nil => simp [StateStore.empty, openDb, hasBlocks]
  | append_singleton ops op ih =>
      rw [Machine.final_append, Machine.outputs_append, Machine.final_cons, Machine.final_nil,
        hasBlocks_step_iff, ih, Machine.outputs_cons, Machine.outputs_nil, List.append_nil, ne_eq,
        ne_eq, ne_eq, List.append_eq_nil_iff]
      exact not_and_or.symm

/-- For every store reached from an empty database the height of the round, the height of a
built block and the height that `apply_block` asks for agree exactly when a block has been
applied. -/
theorem next_heights_iff (ops : List StoreOp) :
    HeightsAgree (storeMachine.final StateStore.empty ops) ↔
      storeMachine.outputs StateStore.empty ops ≠ [] := by
  rw [heightsAgree_iff, hasBlocks_final_iff]

omit [Bls] [Blake3] in
theorem first_heights_differ :
    letI := Bls.plain
    letI := Blake3.sum
    ¬ HeightsAgree StateStore.empty ∧
      ((ConsensusEngine.new StateStore.empty {} none).enterState 0).height = 1 ∧
      (BlockBuilder.buildBlock StateStore.empty [] (fill 32 0) (fill 32 0) 0 0).header.height =
        0 := by
  let _ := Bls.plain
  let _ := Blake3.sum
  refine ⟨fun h => ?_, rfl, rfl⟩
  have hround := h.round (ConsensusEngine.new StateStore.empty {} none) 0 rfl
  exact absurd hround (by decide)

end NoirNet
