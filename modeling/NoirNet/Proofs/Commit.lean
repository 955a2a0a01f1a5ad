import NoirNet.Consensus.Concrete
import NoirNet.Consensus.Rounds

/-!
# Which block a commit executes

The quorum is counted for a hash; the block that is executed is the one in
`current_block`, the last proposal admitted since the height was entered.  A
commit executes the block that was voted for exactly when the two agree.
-/

namespace NoirNet

open Lib

namespace LoopState

variable [Bls] [Blake3]

variable [Nova]

/-- The last proposal admitted since the height was entered, behind `inputs`. -/
def lastProposal : LoopState → Option Block → List Input → Option Block
  | _, last, [] => last
  | state, last, input :: inputs =>
      let next :=
        if state.leaves input then none
        else
          match input.event with
          | .block block => if state.admits input.env.randomPeer block then some block else last
          | _ => last
      lastProposal (state.step input).1 next inputs

theorem currentBlock_step (state : LoopState) (input : Input) :
    (state.step input).1.currentBlock =
      if state.leaves input then none else state.nextBlock input := by
  refine step_cases state input ?stay ?timeout ?enter
  case stay =>
    intro engine _
    rfl
  case timeout =>
    intro engine _ hevent
    show state.currentBlock = state.nextBlock input
    rw [nextBlock, hevent]
  case enter =>
    intro engine _
    rfl

theorem currentBlock_final (state : LoopState) (inputs : List Input) :
    (engineMachine.final state inputs).currentBlock =
      state.lastProposal state.currentBlock inputs := by
  induction inputs generalizing state with
  | nil => rfl
  | cons input inputs ih =>
      have hnext := state.currentBlock_step input
      rw [Machine.final_cons, ih]
      show lastProposal (state.step input).1 (state.step input).1.currentBlock inputs = _
      rw [hnext, lastProposal]
      rfl

/-- Every block executed by a step that commits to a hash has that hash. -/
def CommitsVoted (state : LoopState) (input : Input) : Prop :=
  ∀ commit ∈ Action.commits (state.step input).2,
    ∀ block ∈ Action.executions (state.step input).2, block.header.hash = commit.2

theorem commitsVoted_vote_iff (state : LoopState) (env : Env) (vote : Vote) :
    state.CommitsVoted { env, event := .vote vote } ↔
      (state.decides vote → ∀ block, state.currentBlock = some block →
        block.header.hash = vote.blockHash) := by
  unfold CommitsVoted
  rw [commits_step, executions_step_vote, decides_iff]
  simp only [commitsOn]
  by_cases hcommit : state.counts vote ∧ state.newPhase vote = some .commit
  · rw [if_pos hcommit, if_pos hcommit]
    simp [hcommit]
  · simp [hcommit]

theorem commitsVoted_of_not_vote {state : LoopState} {input : Input}
    (hevent : ∀ vote, input.event ≠ .vote vote) : state.CommitsVoted input := by
  intro commit hcommit
  rw [commits_step, commitsOn] at hcommit
  cases h : input.event with
  | vote vote => exact absurd h (hevent vote)
  | _ => simp [h] at hcommit

end LoopState

open LoopState

/-- Over any run from the head of the outer loop, every commit executes the
block that was voted for exactly when, at every vote that decides, the last
proposal admitted since the height was entered is the one the vote names. -/
theorem commit_executes_voted_iff [Bls] [Blake3] [Nova] (engine : ConsensusEngine)
    (generation : Nat) (inputs : List Input) :
    (∀ before input after, inputs = before ++ input :: after →
        (engineMachine.final (engine.enterState generation) before).CommitsVoted input) ↔
      ∀ before env vote after, inputs = before ++ { env, event := .vote vote } :: after →
        (engineMachine.final (engine.enterState generation) before).decides vote →
          ∀ block, (engine.enterState generation).lastProposal none before = some block →
            block.header.hash = vote.blockHash := by
  have hcurrent (before : List Input) :
      (engineMachine.final (engine.enterState generation) before).currentBlock =
        (engine.enterState generation).lastProposal none before :=
    currentBlock_final (engine.enterState generation) before
  constructor
  · intro h before env vote after hsplit
    rw [← hcurrent]
    exact (commitsVoted_vote_iff _ env vote).mp (h before _ after hsplit)
  · intro h before input after hsplit
    obtain ⟨env, event⟩ := input
    cases event with
    | vote vote =>
        rw [commitsVoted_vote_iff, hcurrent]
        exact h before env vote after hsplit
    | _ => exact commitsVoted_of_not_vote (by simp)

theorem commit_executes_other_block :
    letI := Blake3.sum
    letI := Bls.plain
    letI := Nova.rejecting
    let start := (ConsensusEngine.new (StateStore.withValidators [1]) {} none).enterState 0
    let state := engineMachine.final start
      [(Event.block blockA).input,
        (Event.vote (Vote.plain 1 0 blockA.header.hash .prevote)).input,
        (Event.block blockB).input]
    let last := (Event.vote (Vote.plain 1 0 blockA.header.hash .precommit)).input
    start.valSet.isEmpty = false ∧
      Action.commits (state.step last).2 = [(1, blockA.header.hash)] ∧
      Action.executions (state.step last).2 = [blockB] ∧
      blockB.header.hash ≠ blockA.header.hash := by
  decide +kernel

end NoirNet
