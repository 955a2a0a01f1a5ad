import NoirNet.Consensus.Outcome
import NoirNet.Consensus.Rounds

/-!
# What a step of the loop executes

Blocks reach `execute_and_apply_block` on two paths: the block a commit finds in
`current_block`, and the blocks of a sync response in order, each on the store
the ones before it left.
-/

namespace NoirNet

open Lib

def Action.outcomes (actions : List Action) : List (Block × BlockOutcome) :=
  actions.filterMap fun
    | .executed block outcome => some (block, outcome)
    | _ => none

@[simp] theorem Action.outcomes_append (xs ys : List Action) :
    outcomes (xs ++ ys) = outcomes xs ++ outcomes ys :=
  List.filterMap_append

theorem Action.outcomes_of_executions {actions : List Action} (h : executions actions = []) :
    outcomes actions = [] := by
  rw [executions, List.filterMap_eq_nil_iff] at h
  rw [outcomes, List.filterMap_eq_nil_iff]
  intro action haction
  have hnone := h action haction
  cases action <;> simp_all

variable [Bls] [Blake3] [Nova]

namespace ConsensusEngine

/-- What `execute_and_apply_block` makes of a block. -/
def outcome (engine : ConsensusEngine) (vm : WasmRuntime) (now : UInt64) (block : Block) :
    BlockOutcome :=
  (executeAndApplyBlock vm engine.isValidator now engine.stateStore engine.mempool block).2.2

theorem outcomes_execute (engine : ConsensusEngine) (vm : WasmRuntime) (now : UInt64)
    (block : Block) :
    Action.outcomes (engine.execute vm now block).2 = [(block, engine.outcome vm now block)] := by
  simp only [execute, outcome]
  cases (executeAndApplyBlock vm engine.isValidator now engine.stateStore engine.mempool
    block).2.2.slashing <;> rfl

def syncOutcomes (env : Env) (height : UInt64) :
    ConsensusEngine → Nat → List Block → List (Block × BlockOutcome)
  | _, _, [] => []
  | engine, k, block :: blocks =>
      if block.header.height ≥ height then
        (block, engine.outcome env.vm (env.now k) block) ::
          syncOutcomes env height (engine.execute env.vm (env.now k) block).1 (k + 1) blocks
      else syncOutcomes env height engine k blocks

theorem outcomes_executeSynced (env : Env) (height : UInt64) (engine : ConsensusEngine) (k : Nat)
    (blocks : List Block) :
    Action.outcomes (executeSynced env height engine k blocks).2 =
      syncOutcomes env height engine k blocks := by
  induction blocks generalizing engine k with
  | nil => rfl
  | cons block blocks ih =>
      rw [executeSynced, syncOutcomes]
      by_cases hheight : block.header.height ≥ height
      · rw [if_pos hheight, if_pos hheight]
        rw [Action.outcomes_append, outcomes_execute, ih, List.singleton_append]
      · rw [if_neg hheight, if_neg hheight, ih]

end ConsensusEngine

namespace LoopState

theorem outcomes_onSyncResponse (state : LoopState) (env : Env) (res : SyncResponse) :
    Action.outcomes (state.onSyncResponse env res).2 =
      if state.engine.syncManager.isSyncing then
        ConsensusEngine.syncOutcomes env state.height state.engine 0 res.blocks
      else [] := by
  have hsynced := ConsensusEngine.outcomes_executeSynced env state.height state.engine 0 res.blocks
  simp only [onSyncResponse]
  by_cases hsyncing : state.engine.syncManager.isSyncing
  · rw [if_pos hsyncing, if_pos hsyncing, ← hsynced]
    split
    · split
      · simp only [Action.outcomes_append]
        exact List.append_nil _
      · rfl
    · rfl
  · rw [if_neg hsyncing, if_neg hsyncing]
    rfl

theorem outcomes_onVote_of_decides {state : LoopState} {vote : Vote} (env : Env)
    (hdecides : state.decides vote) :
    Action.outcomes (state.onVote env vote).2 =
      state.currentBlock.toList.map fun block =>
        (block, state.engine.outcome env.vm (env.now 0) block) := by
  obtain ⟨hcounts, hphase⟩ := decides_iff.mp hdecides
  cases hblock : state.currentBlock with
  | none =>
      rw [state.onVote_of_commit_none env hcounts hphase hblock]
      rfl
  | some block =>
      rw [state.onVote_of_commit_some env hcounts hphase hblock]
      exact state.engine.outcomes_execute env.vm (env.now 0) block

theorem outcomes_step (state : LoopState) (input : Input) :
    Action.outcomes (state.step input).2 =
      match input.event with
      | .vote vote =>
          if state.decides vote then
            state.currentBlock.toList.map fun block =>
              (block, state.engine.outcome input.env.vm (input.env.now 0) block)
          else []
      | .syncResponse _ res =>
          if state.engine.syncManager.isSyncing then
            ConsensusEngine.syncOutcomes input.env state.height state.engine 0 res.blocks
          else []
      | _ => [] := by
  obtain ⟨proposal, hactions, -, hnone⟩ := state.step_actions input
  have hturn : Action.outcomes (state.step input).2 = Action.outcomes (state.turn input).2 := by
    rw [hactions, Action.outcomes_append, Action.outcomes_of_executions hnone, List.append_nil]
  rw [hturn]
  obtain ⟨env, event⟩ := input
  cases event with
  | vote vote =>
      by_cases hdecides : state.decides vote
      · simp only [hdecides, if_true]
        exact outcomes_onVote_of_decides env hdecides
      · simp only [hdecides, if_false, Bool.false_eq_true]
        rw [← hturn]
        apply Action.outcomes_of_executions
        rw [state.executions_step_vote, if_neg (mt decides_iff.mpr hdecides)]
  | syncResponse peer res => exact state.outcomes_onSyncResponse env res
  | block block => exact Action.outcomes_of_executions (state.actions_onBlock env block).2.2.2
  | syncRequest peer req => rfl
  | timeout =>
      simp only [turn, onTimeout]
      split <;> rfl
  | mempoolInsert tx =>
      simp only [turn]
      split <;> rfl
  | pruneHistory keepLast => rfl

end LoopState

end NoirNet
