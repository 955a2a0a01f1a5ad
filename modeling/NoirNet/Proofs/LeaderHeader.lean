import NoirNet.Proofs.Election
import NoirNet.Proofs.Prevotes

/-!
# What a header says about its leader

The node elects with the hash of the height and the round, in the validator set of
the epoch.  The header of its proposal holds the hash of the parent in place of the
one and the height in place of the other.

* `electLeader_id_iff`: which stakes a word draws;
* `proposals_enter`, `proposals_turn`: proposals are made at the head of the outer loop;
* `headVerifies_iff`: when the header of a proposal elects its proposer;
* `leaders_verify_iff`: the run.
-/

namespace NoirNet

open Lib Lottery

/-! ## Drawing an id -/

namespace ValidatorSet

/-- The word falls to the stake of an entry with the id: the sums of the stakes up to
the entry exceed it and none before does, or none does at all and the entry is the
first. -/
def Draws (vals : ValidatorSet) (vrfOutput : Bytes32) (id : Bytes32) : Prop :=
  let stakes := vals.validators.map StakeEntry.totalStake
  let ticket := vals.threshold vrfOutput
  ∃ i, (vals.validators[i]?).map StakeEntry.id = some id ∧
    ((ticket < level 0 stakes (i + 1) ∧ ∀ j < i, ¬ ticket < level 0 stakes (j + 1)) ∨
      i = 0 ∧ ∀ j < stakes.length, ¬ ticket < level 0 stakes (j + 1))

theorem electLeader_id_iff {vals : ValidatorSet} {vrfOutput id : Bytes32} {epoch : UInt64} :
    (vals.electLeader vrfOutput epoch).map StakeEntry.id = some id ↔ vals.Draws vrfOutput id := by
  rw [electLeader_eq, electPosition, Draws]
  by_cases hempty : vals.isEmpty
  · have hnil : vals.validators = [] := List.isEmpty_iff.mp hempty
    simp [hempty, hnil]
  · rw [if_neg hempty, Option.bind_some]
    have hdrawn {i : Nat} (hi : (vals.validators[i]?).map StakeEntry.id = some id) :
        i < (vals.validators.map StakeEntry.totalStake).length := by
      rw [List.length_map]
      by_contra hge
      rw [List.getElem?_eq_none (Nat.not_lt.mp hge)] at hi
      cases hi
    constructor
    · intro hid
      exact ⟨_, hid, (getD_drawFrom_eq_iff (hdrawn hid)).mp rfl⟩
    · rintro ⟨i, hid, hi⟩
      rw [(getD_drawFrom_eq_iff (hdrawn hid)).mpr hi]
      exact hid

end ValidatorSet

/-! ## Proposals -/

namespace Action

def proposals (actions : List Action) : List Block :=
  actions.filterMap fun
    | .broadcastBlock block => some block
    | _ => none

@[simp] theorem proposals_append (xs ys : List Action) :
    proposals (xs ++ ys) = proposals xs ++ proposals ys :=
  List.filterMap_append

end Action

/-- The block elects its proposer. -/
def Block.VerifiesLeader (block : Block) (store : StateStore) : Prop :=
  ((store.getValidatorSet block.header.epoch).electLeader block.header.vrfOutput
    block.header.epoch).map StakeEntry.id = some block.header.proposer

section

variable [Bls] [Blake3] [Nova]

namespace ConsensusEngine

theorem proposals_execute (engine : ConsensusEngine) (vm : WasmRuntime) (now : UInt64)
    (block : Block) : Action.proposals (engine.execute vm now block).2 = [] := by
  simp only [execute]
  cases (executeAndApplyBlock vm engine.isValidator now engine.stateStore engine.mempool
    block).2.2.slashing <;> rfl

theorem proposals_executeSynced (env : Env) (height : UInt64) (engine : ConsensusEngine) (k : Nat)
    (blocks : List Block) :
    Action.proposals (executeSynced env height engine k blocks).2 = [] := by
  induction blocks generalizing engine k with
  | nil => rfl
  | cons block blocks ih =>
      rw [executeSynced]
      by_cases hheight : block.header.height ≥ height
      · rw [if_pos hheight, Action.proposals_append, proposals_execute, ih, List.append_nil]
      · rw [if_neg hheight, ih]

/-- At the head of the outer loop the node is elected and not syncing. -/
def Proposes (engine : ConsensusEngine) (generation : Nat) : Prop :=
  let state := engine.enterState generation
  state.engine.isLeader state.valSet state.height state.round (state.height / EPOCH_BLOCKS) ∧
    ¬ state.engine.syncManager.isSyncing

instance (engine : ConsensusEngine) (generation : Nat) : Decidable (engine.Proposes generation) :=
  inferInstanceAs (Decidable (_ ∧ _))

def loopHeight (engine : ConsensusEngine) : UInt64 := engine.stateStore.getChainHeight + 1

def proposal (engine : ConsensusEngine) (env : Env) (k : Nat) : Block :=
  BlockBuilder.buildBlock engine.stateStore
    (engine.mempool.selectForBlock env.shuffle 10000 MAX_BLOCK_GAS) engine.localValidatorId
    (engine.parentHash engine.loopHeight) (env.now k) engine.loopHeight

omit [Nova] in
theorem enter_snd (engine : ConsensusEngine) (env : Env) (k generation : Nat) :
    (engine.enter env k generation).2 =
      if engine.Proposes generation then [.broadcastBlock (engine.proposal env k)] else [] := rfl

omit [Nova] in
theorem proposals_enter (engine : ConsensusEngine) (env : Env) (k generation : Nat) :
    Action.proposals (engine.enter env k generation).2 =
      if engine.Proposes generation then [engine.proposal env k] else [] := by
  rw [enter_snd]
  split <;> rfl

def HeadVerifies (engine : ConsensusEngine) (env : Env) (k generation : Nat) : Prop :=
  (engine.enterState generation).valSet.isEmpty = false →
    ∀ block ∈ Action.proposals (engine.enter env k generation).2,
      block.VerifiesLeader engine.stateStore

/-- If the node is elected, then the hash of the parent, among the validators registered
for an epoch up to the height, draws it too. -/
def Redraws (engine : ConsensusEngine) (generation : Nat) : Prop :=
  (engine.enterState generation).valSet.isEmpty = false → engine.Proposes generation →
    (engine.stateStore.getValidatorSet engine.loopHeight).Draws
      (engine.parentHash engine.loopHeight) engine.localValidatorId

omit [Nova] in
theorem headVerifies_iff {engine : ConsensusEngine} (env : Env) (k : Nat) {generation : Nat} :
    engine.HeadVerifies env k generation ↔ engine.Redraws generation := by
  apply imp_congr_right
  intro _
  have hheader : (engine.proposal env k).VerifiesLeader engine.stateStore ↔
      (engine.stateStore.getValidatorSet engine.loopHeight).Draws
        (engine.parentHash engine.loopHeight) engine.localValidatorId :=
    ValidatorSet.electLeader_id_iff
  rw [proposals_enter, ← hheader]
  by_cases hproposes : engine.Proposes generation
  · simp [hproposes]
  · simp [hproposes]

end ConsensusEngine

namespace LoopState

omit [Blake3] [Nova] in
theorem proposals_vote (state : LoopState) (hash : Hash32) (voteType : VoteType) :
    Action.proposals (state.vote hash voteType).2 = [] := by
  unfold vote
  split <;> rfl

omit [Bls] [Blake3] [Nova] in
theorem proposals_requestSync (syncManager : SyncManager) (request : Option SyncRequest) :
    Action.proposals (requestSync syncManager request) = [] := by
  unfold requestSync
  split
  · split <;> rfl
  · rfl

omit [Nova] in
theorem proposals_onBlock (state : LoopState) (env : Env) (block : Block) :
    Action.proposals (state.onBlock env block).2 = [] := by
  simp only [onBlock]
  split
  · rw [Action.proposals_append, proposals_requestSync, proposals_vote, List.append_nil]
  · exact proposals_requestSync _ _

theorem proposals_onVote (state : LoopState) (env : Env) (vote : Vote) :
    Action.proposals (state.onVote env vote).2 = [] := by
  unfold onVote
  by_cases hcounts : state.counts vote
  · rw [if_pos hcounts]
    dsimp only
    split
    · exact proposals_vote _ _ _
    · split
      · exact state.engine.proposals_execute env.vm (env.now 0) _
      · rfl
    · rfl
  · rw [if_neg hcounts]
    rfl

theorem proposals_onSyncResponse (state : LoopState) (env : Env) (res : SyncResponse) :
    Action.proposals (state.onSyncResponse env res).2 = [] := by
  have hsynced :=
    ConsensusEngine.proposals_executeSynced env state.height state.engine 0 res.blocks
  simp only [onSyncResponse]
  split
  · split
    · split
      · rw [Action.proposals_append, hsynced]
        rfl
      · exact hsynced
    · exact hsynced
  · rfl

theorem proposals_turn (state : LoopState) (input : Input) :
    Action.proposals (state.turn input).2 = [] := by
  obtain ⟨env, event⟩ := input
  cases event with
  | block block => exact state.proposals_onBlock env block
  | vote vote => exact state.proposals_onVote env vote
  | syncRequest peer req => rfl
  | syncResponse peer res => exact state.proposals_onSyncResponse env res
  | timeout =>
      simp only [turn, onTimeout]
      split <;> rfl
  | mempoolInsert tx =>
      simp only [turn]
      split <;> rfl
  | pruneHistory keepLast => rfl

def VerifiesLeaders (state : LoopState) (input : Input) : Prop :=
  (state.step input).1.valSet.isEmpty = false →
    ∀ block ∈ Action.proposals (state.step input).2,
      block.VerifiesLeader (state.step input).1.engine.stateStore

def RedrawsLeaders (state : LoopState) (input : Input) : Prop :=
  ∀ engine, (state.turn input).1 = .leave engine → engine.Redraws state.generation

theorem verifiesLeaders_iff (state : LoopState) (input : Input) :
    state.VerifiesLeaders input ↔ state.RedrawsLeaders input := by
  have hnone := state.proposals_turn input
  unfold VerifiesLeaders RedrawsLeaders step
  cases hturn : state.turn input with
  | mk flow actions =>
      rw [hturn] at hnone
      dsimp only at hnone
      cases flow with
      | stay state' => simp [hnone]
      | leave engine =>
          have hhead :=
            @ConsensusEngine.headVerifies_iff _ _ engine input.env actions.length state.generation
          simp only [Action.proposals_append, hnone, List.nil_append]
          constructor
          · intro h engine' hengine
            cases hengine
            exact hhead.mp h
          · intro h
            exact hhead.mpr (h engine rfl)

end LoopState

/-- In every run, every header with which the node proposes as the elected leader elects
its proposer exactly when, wherever the node is elected at the head of the outer loop,
the hash of the parent draws it too, among the validators registered for an epoch up to
the height. -/
theorem leaders_verify_iff (engine : ConsensusEngine) (env : Env) (generation : Nat)
    (inputs : List Input) :
    (engine.HeadVerifies env 0 generation ∧
        engineMachine.Admissible LoopState.VerifiesLeaders (engine.enterState generation) inputs) ↔
      engine.Redraws generation ∧
        engineMachine.Admissible LoopState.RedrawsLeaders (engine.enterState generation)
          inputs := by
  rw [ConsensusEngine.headVerifies_iff]
  apply and_congr_right
  intro _
  apply engineMachine.admissible_iff_of_invariant (fun _ => True) (fun _ _ _ => trivial) _ trivial
  intro state input _
  exact state.verifiesLeaders_iff input

end

/-! ## The first proposal -/

section

attribute [local instance] Blake3.sum Bls.plain Nova.rejecting

theorem first_leader_unverified :
    let engine := ConsensusEngine.plain [1, 2] 2
    engine.Proposes 0 ∧ (engine.enterState 0).valSet.isEmpty = false ∧
      ¬ ∀ (engine : ConsensusEngine) (env : Env) (generation : Nat) (inputs : List Input),
        engine.HeadVerifies env 0 generation ∧
          engineMachine.Admissible LoopState.VerifiesLeaders (engine.enterState generation)
            inputs := by
  intro engine
  have hproposes : engine.Proposes 0 := by decide +kernel
  have hmembers : (engine.enterState 0).valSet.isEmpty = false := by decide +kernel
  refine ⟨hproposes, hmembers, fun h => ?_⟩
  have hverified := (h engine Env.blank 0 []).1 hmembers (engine.proposal Env.blank 0) (by
    rw [ConsensusEngine.proposals_enter, if_pos hproposes]
    exact List.mem_singleton_self _)
  have hfirst : ((engine.stateStore.getValidatorSet 1).electLeader (fill 32 0) 1).map
      StakeEntry.id = some (fill 32 1) := by decide +kernel
  exact absurd (hfirst.symm.trans hverified) (by decide)

end

end NoirNet
