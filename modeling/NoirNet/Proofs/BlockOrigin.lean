import NoirNet.Consensus.Concrete
import NoirNet.Consensus.Evolution

/-!
# Where an executed block comes from

A commit executes the block that `current_block` holds, and only a proposal
from the network is put there: what the node proposes itself is broadcast and
forgotten.

* `Held`: the current block was delivered as a proposal for the loop's height;
* `held_step`: one step keeps it;
* `executed_block_origin`: the two origins of a block that is executed.
-/

namespace NoirNet

open Lib

def proposals (inputs : List Input) : List Block :=
  inputs.filterMap fun input =>
    match input.event with
    | .block block => some block
    | _ => none

@[simp] theorem proposals_append (xs ys : List Input) :
    proposals (xs ++ ys) = proposals xs ++ proposals ys :=
  List.filterMap_append

section

variable [Bls] [Blake3] [Nova]

namespace LoopState

/-- The current block is one of the proposals, and one for the height of the loop. -/
def Held (delivered : List Block) (state : LoopState) : Prop :=
  ∀ block ∈ state.currentBlock, block ∈ delivered ∧ block.header.height = state.height

omit [Blake3] [Nova] in
theorem Held.mono {delivered more : List Block} {state : LoopState} (h : state.Held delivered) :
    state.Held (delivered ++ more) :=
  fun block hblock => ⟨List.mem_append_left more (h block hblock).1, (h block hblock).2⟩

theorem held_step {delivered : List Block} {state : LoopState} (h : state.Held delivered)
    (input : Input) : (state.step input).1.Held (delivered ++ proposals [input]) := by
  refine step_cases (motive := fun _ state' => state'.Held (delivered ++ proposals [input]))
    state input ?_ ?_ ?_
  · intro engine _ block hblock
    obtain ⟨env, event⟩ := input
    cases event with
    | block proposal =>
        simp only [nextBlock] at hblock
        by_cases hadmits : state.admits env.randomPeer proposal
        · rw [if_pos hadmits] at hblock
          obtain rfl := Option.some.inj hblock
          rw [admits, decide_eq_true_iff] at hadmits
          exact ⟨List.mem_append_right delivered (by simp [proposals]), hadmits.1⟩
        · rw [if_neg hadmits] at hblock
          exact h.mono block hblock
    | _ => exact h.mono block hblock
  · intro engine _ _ block hblock
    exact h.mono block hblock
  · intro engine _ block hblock
    cases hblock

theorem held_final {state : LoopState} (hstart : state.currentBlock = none)
    (inputs : List Input) : (engineMachine.final state inputs).Held (proposals inputs) := by
  induction inputs using List.reverseRecOn with
  | nil =>
      intro block hblock
      rw [Machine.final_nil, hstart] at hblock
      cases hblock
  | append_singleton inputs input ih =>
      rw [Machine.final_append, proposals_append]
      exact held_step ih input

end LoopState

/-- In every run, a block that a turn executes is either the proposal a commit finds in
`current_block`, delivered before by another node for the height of the loop, or a block of the
sync response of this turn from that height on.  So a proposal of the node's own is executed
only if it comes back from the network. -/
theorem executed_block_origin (engine : ConsensusEngine) (env : Env) (front : List Input)
    (input : Input) (block : Block) (outcome : BlockOutcome) :
    let state := engineMachine.final (engine.enter env 0 0).1 front
    .executed block outcome ∈ (state.step input).2 →
      (∃ vote, input.event = .vote vote ∧ state.decides vote ∧
          state.currentBlock = some block ∧ block ∈ proposals front ∧
          block.header.height = state.height) ∨
        ∃ peer res, input.event = .syncResponse peer res ∧
          state.engine.syncManager.isSyncing = true ∧ block ∈ res.blocks ∧
          block.header.height ≥ state.height := by
  intro state hexecuted
  have hheld : state.Held (proposals front) := LoopState.held_final rfl front
  have houtcome : (block, outcome) ∈ Action.outcomes (state.step input).2 :=
    List.mem_filterMap.mpr ⟨_, hexecuted, rfl⟩
  rw [state.outcomes_step input] at houtcome
  obtain ⟨inputEnv, event⟩ := input
  cases event with
  | vote vote =>
      left
      dsimp only at houtcome
      by_cases hdecides : state.decides vote
      · rw [if_pos hdecides] at houtcome
        obtain ⟨held, hcurrent, heq⟩ := List.mem_map.mp houtcome
        obtain ⟨rfl, -⟩ := Prod.mk.inj heq
        have hcurrent := Option.mem_toList.mp hcurrent
        obtain ⟨hdelivered, hheight⟩ := hheld held hcurrent
        exact ⟨vote, rfl, hdecides, hcurrent, hdelivered, hheight⟩
      · rw [if_neg hdecides] at houtcome
        cases houtcome
  | syncResponse peer res =>
      right
      dsimp only at houtcome
      by_cases hsyncing : state.engine.syncManager.isSyncing
      · rw [if_pos hsyncing] at houtcome
        obtain ⟨hmem, hheight⟩ := ConsensusEngine.mem_syncOutcomes houtcome
        exact ⟨peer, res, rfl, hsyncing, hmem, hheight⟩
      · rw [if_neg hsyncing] at houtcome
        cases houtcome
  | _ => cases houtcome

end

section

attribute [local instance] Bls.plain Blake3.sum Nova.rejecting

theorem committed_proposal_origin :
    let front := [Event.input (.block blockA),
      Event.input (.vote (Vote.plain 1 0 blockA.header.hash .prevote))]
    let vote := Vote.plain 1 0 blockA.header.hash .precommit
    let state := engineMachine.final
      ((ConsensusEngine.new (StateStore.withValidators [1]) {} none).enter Env.blank 0 0).1 front
    (∃ vote', Event.vote vote = .vote vote' ∧ state.decides vote' ∧
        state.currentBlock = some blockA ∧ blockA ∈ proposals front ∧
        blockA.header.height = state.height) ∨
      ∃ peer res, Event.vote vote = .syncResponse peer res ∧
        state.engine.syncManager.isSyncing = true ∧ blockA ∈ res.blocks ∧
        blockA.header.height ≥ state.height :=
  executed_block_origin (ConsensusEngine.new (StateStore.withValidators [1]) {} none) Env.blank _
    (Event.input (.vote (Vote.plain 1 0 blockA.header.hash .precommit))) blockA
    (.rootMismatch emptyRoot) (by decide +kernel)

end

end NoirNet
