import NoirNet.Consensus.Writes
import NoirNet.Proofs.Tip

/-!
# A node without a genesis block

On a database without blocks the chain height reads 0, so the loop works at
height 1 and takes proposals and synced blocks from there on; `apply_block` asks
for height 0.  Nothing in the node makes a block of that height.

* `Fruitless`: what holds at every turn;
* `fruitless_step`: one step keeps it and writes nothing;
* `never_writes_without_genesis`: the run.
-/

namespace NoirNet

open Lib

section

variable [Bls] [Blake3] [Nova]

namespace ConsensusEngine

section

variable {engine : ConsensusEngine} (hempty : engine.stateStore.db.chainHeight = none)

include hempty

/-- A block above height 0 is not written, and its execution leaves the store alone. -/
theorem execute_without_genesis (vm : WasmRuntime) (now : UInt64) {block : Block}
    (hheight : block.header.height ≥ 1) :
    (engine.execute vm now block).1.stateStore = engine.stateStore ∧
      (engine.outcome vm now block).written = false := by
  have hexpected : engine.stateStore.expectedHeight = 0 := by
    simp [StateStore.expectedHeight, StateStore.hasBlocks, hempty]
  have hne : block.header.height ≠ engine.stateStore.expectedHeight := by
    rw [hexpected]
    rintro hzero
    rw [hzero] at hheight
    exact absurd hheight (by decide)
  have hstore : (engine.execute vm now block).1.stateStore = (executorMachine.step
      (engine.stateStore, engine.mempool) ⟨vm, engine.isValidator, now, block⟩).1.1 := rfl
  constructor
  · rw [hstore]
    by_cases hpass : Passes engine.isValidator now block
    · rw [step_fst_of_passes hpass, applyExecuted, StateStore.applyBlock_of_height_ne hne]
    · rw [step_fst_of_not_passes hpass]
  · rw [outcome, ← Bool.not_eq_true, outcome_written_iff]
    rintro ⟨-, haccepts⟩
    exact hne haccepts.1

theorem executeSynced_without_genesis (env : Env) (k : Nat) (blocks : List Block) :
    (executeSynced env 1 engine k blocks).1.stateStore = engine.stateStore ∧
      ∀ o ∈ syncOutcomes env 1 engine k blocks, o.2.written = false := by
  induction blocks generalizing engine k with
  | nil => exact ⟨rfl, nofun⟩
  | cons block blocks ih =>
      rw [executeSynced, syncOutcomes]
      by_cases hheight : block.header.height ≥ 1
      · obtain ⟨hstore, hwritten⟩ := execute_without_genesis hempty env.vm (env.now k) hheight
        have hempty' : (engine.execute env.vm (env.now k) block).1.stateStore.db.chainHeight =
            none := by rw [hstore, hempty]
        obtain ⟨hrest, hall⟩ := ih hempty' (k + 1)
        rw [if_pos hheight, if_pos hheight]
        exact ⟨hrest.trans hstore, List.forall_mem_cons.mpr ⟨hwritten, hall⟩⟩
      · rw [if_neg hheight, if_neg hheight]
        exact ih hempty k

end

end ConsensusEngine

/-! ## One step -/

namespace LoopState

structure Fruitless (store : StateStore) (state : LoopState) : Prop where
  store_eq : state.engine.stateStore = store
  height_eq : state.height = 1
  block_height : ∀ block ∈ state.currentBlock, block.header.height = 1

omit [Blake3] [Nova] in
theorem fruitless_enterState {store : StateStore} (hempty : store.db.chainHeight = none)
    {engine : ConsensusEngine} (hstore : engine.stateStore = store) (generation : Nat) :
    (engine.enterState generation).Fruitless store where
  store_eq := hstore
  height_eq := by
    show engine.stateStore.getChainHeight + 1 = 1
    rw [hstore, StateStore.getChainHeight, hempty]
    rfl
  block_height := nofun

section

variable {store : StateStore} (hempty : store.db.chainHeight = none) {state : LoopState}
  (h : state.Fruitless store)

include hempty h

omit hempty [Nova] in
theorem Fruitless.onBlock (env : Env) (block : Block) :
    (state.onBlock env block).1.Fruitless store := by
  obtain ⟨hheight, hengine⟩ := onBlock_frame state env block
  refine ⟨?_, hheight.trans h.height_eq, ?_⟩
  · rw [hengine]
    exact h.store_eq
  · have hcurrent : (state.onBlock env block).1.currentBlock =
        state.nextBlock { env, event := .block block } := by
      unfold nextBlock LoopState.onBlock
      by_cases hadmits : state.admits env.randomPeer block
      · simp only [hadmits, if_true, vote_fst]
      · simp only [hadmits, if_false, Bool.false_eq_true]
    rw [hcurrent, nextBlock]
    by_cases hadmits : state.admits env.randomPeer block
    · simp only [hadmits, if_true]
      rintro _ ⟨⟩
      rw [admits, decide_eq_true_iff] at hadmits
      rw [hadmits.1, h.height_eq]
    · simp only [hadmits, if_false, Bool.false_eq_true]
      exact h.block_height

theorem Fruitless.step_vote (env : Env) (vote : Vote) :
    (state.step { env, event := .vote vote }).1.Fruitless store := by
  obtain ⟨hstay, -⟩ | ⟨block, -, -, hblock, henter⟩ := state.step_fst_vote env vote
  · rw [hstay]
    exact ⟨h.store_eq, h.height_eq, h.block_height⟩
  · rw [henter]
    apply fruitless_enterState hempty
    have hengine : state.engine.stateStore.db.chainHeight = none := by rw [h.store_eq, hempty]
    have hheight : block.header.height ≥ 1 := by
      rw [h.block_height block hblock]
      exact UInt64.le_refl 1
    rw [(ConsensusEngine.execute_without_genesis hengine env.vm (env.now 0) hheight).1, h.store_eq]

theorem Fruitless.step_syncResponse (env : Env) (peer : PeerId) (res : SyncResponse) :
    (state.step { env, event := .syncResponse peer res }).1.Fruitless store := by
  have hengine : state.engine.stateStore.db.chainHeight = none := by rw [h.store_eq, hempty]
  obtain ⟨hsynced, -⟩ :=
    ConsensusEngine.executeSynced_without_genesis hengine env 0 res.blocks
  simp only [LoopState.step, turn, onSyncResponse]
  by_cases hsyncing : state.engine.syncManager.isSyncing
  · rw [if_pos hsyncing, h.height_eq]
    generalize ConsensusEngine.executeSynced env 1 state.engine 0 res.blocks = synced at hsynced ⊢
    have hstore : synced.1.stateStore = store := hsynced.trans h.store_eq
    split
    · rename_i hflow
      split at hflow
      · split at hflow
        · cases hflow
          exact ⟨hstore, rfl, h.block_height⟩
        · cases hflow
      · cases hflow
        exact ⟨hstore, rfl, h.block_height⟩
    · rename_i hflow
      split at hflow
      · split at hflow
        · cases hflow
        · cases hflow
          refine fruitless_enterState hempty ?_ state.generation
          exact hstore
      · cases hflow
  · rw [if_neg hsyncing]
    exact h

theorem fruitless_step (input : Input) :
    (state.step input).1.Fruitless store ∧
      ∀ o ∈ Action.outcomes (state.step input).2, o.2.written = false := by
  have hengine : state.engine.stateStore.db.chainHeight = none := by rw [h.store_eq, hempty]
  have houtcomes := state.outcomes_step input
  obtain ⟨env, event⟩ := input
  have hnone (hnil : Action.outcomes (state.step { env, event }).2 = []) :
      ∀ o ∈ Action.outcomes (state.step { env, event }).2, o.2.written = false := by
    rw [hnil]
    exact List.forall_mem_nil _
  cases event with
  | block block => exact ⟨h.onBlock env block, hnone houtcomes⟩
  | vote vote =>
      refine ⟨h.step_vote hempty env vote, ?_⟩
      rw [houtcomes]
      intro o ho
      dsimp only at ho
      split at ho
      · obtain ⟨block, hblock, rfl⟩ := List.mem_map.mp ho
        have hheight : block.header.height ≥ 1 := by
          rw [h.block_height block (Option.mem_toList.mp hblock)]
          exact UInt64.le_refl 1
        exact (ConsensusEngine.execute_without_genesis hengine env.vm (env.now 0) hheight).2
      · cases ho
  | syncRequest peer req => exact ⟨h, hnone houtcomes⟩
  | syncResponse peer res =>
      refine ⟨h.step_syncResponse hempty env peer res, ?_⟩
      rw [houtcomes, h.height_eq]
      intro o ho
      dsimp only at ho
      split at ho
      · exact (ConsensusEngine.executeSynced_without_genesis hengine env 0 res.blocks).2 o ho
      · cases ho
  | timeout => exact ⟨⟨h.store_eq, h.height_eq, h.block_height⟩, hnone houtcomes⟩
  | mempoolInsert tx =>
      refine ⟨?_, hnone houtcomes⟩
      simp only [LoopState.step, turn]
      cases state.engine.mempool.insert state.engine.stateStore tx with
      | ok mempool => exact ⟨h.store_eq, h.height_eq, h.block_height⟩
      | error e => exact h
  | pruneHistory keepLast =>
      refine ⟨⟨?_, h.height_eq, h.block_height⟩, hnone houtcomes⟩
      show (state.engine.stateStore.pruneHistory keepLast).1 = store
      have hzero : state.engine.stateStore.getChainHeight = 0 := by
        rw [StateStore.getChainHeight, hengine]
        rfl
      rw [StateStore.pruneHistory, hzero, if_pos (UInt64.zero_le), h.store_eq]

end

end LoopState

/-! ## The run -/

/-- Over any run of the loop on a database without blocks, whatever proposals, votes and
synced blocks arrive, every block that is executed is turned away and the store stays as it
was: the node never has a block. -/
theorem never_writes_without_genesis (store : StateStore) (hempty : store.db.chainHeight = none)
    (mempool : PrivateMempool) (validatorId : Option (Bytes32 × Bls.SecretKey)) (env : Env)
    (inputs : List Input) :
    let start := ((ConsensusEngine.new store mempool validatorId).enter env 0 0).1
    (engineMachine.final start inputs).engine.stateStore = store ∧
      (engineMachine.final start inputs).height = 1 ∧
      ∀ block outcome, .executed block outcome ∈ engineMachine.outputs start inputs →
        outcome.written = false := by
  intro start
  have hstart : start.Fruitless store := LoopState.fruitless_enterState hempty rfl 0
  have hall (front : List Input) : (engineMachine.final start front).Fruitless store :=
    engineMachine.invariant_final (LoopState.Fruitless store)
      (fun _ input h => (LoopState.fruitless_step hempty h input).1) hstart front
  refine ⟨(hall inputs).store_eq, (hall inputs).height_eq, ?_⟩
  intro block outcome hmem
  obtain ⟨⟨state, input⟩, hvisit, hout⟩ := engineMachine.mem_outputs.mp hmem
  obtain ⟨front, rest, -, rfl⟩ := engineMachine.mem_visits hvisit
  apply (LoopState.fruitless_step hempty (hall front) input).2 (block, outcome)
  exact List.mem_filterMap.mpr ⟨_, hout, rfl⟩

end

/-! ## A commit without a genesis block -/

section

attribute [local instance] Bls.plain Blake3.sum Nova.rejecting

def unborn : StateStore := StateStore.openDb { validators := [ValidatorState.blank 1] }

def firstCommit : List Input :=
  [Event.input (.block blockA), Event.input (.vote (Vote.plain 1 0 blockA.header.hash .prevote)),
    Event.input (.vote (Vote.plain 1 0 blockA.header.hash .precommit))]

theorem first_commit_not_written :
    let start := ((ConsensusEngine.new unborn {} none).enter Env.blank 0 0).1
    .committing 1 blockA.header.hash ∈ engineMachine.outputs start firstCommit ∧
      (engineMachine.final start firstCommit).engine.stateStore = unborn ∧
      (engineMachine.final start firstCommit).height = 1 ∧
      ∀ block outcome, .executed block outcome ∈ engineMachine.outputs start firstCommit →
        outcome.written = false :=
  have hcommits : .committing 1 blockA.header.hash ∈ engineMachine.outputs
      ((ConsensusEngine.new unborn {} none).enter Env.blank 0 0).1 firstCommit := by
    decide +kernel
  ⟨hcommits, never_writes_without_genesis unborn rfl {} none Env.blank firstCommit⟩

end

end NoirNet
