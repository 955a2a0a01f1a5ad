import NoirNet.Consensus.Concrete
import NoirNet.Consensus.Writes

/-!
# What a validator prevotes for

A proposal gets the node's prevote when its height is that of the loop and the
node is not syncing.  Who proposed it, what it is built on and whether it could
be applied are not looked at.

* `proper_iff`: what makes a proposal a proper one, field by field;
* `prevotes_step`: whose prevotes a turn casts;
* `prevotes_proper_iff`: the run.
-/

namespace NoirNet

open Lib

namespace LoopState

section

variable [Bls] [Blake3]

/-- The validator that is elected where the loop enters the height, in round 0. -/
def leader (state : LoopState) : Option StakeEntry :=
  state.valSet.electLeader
    (blake3Of (Wire.leBytes 8 state.height.toNat ++
      (Wire.leBytes 4 (0 : UInt32).toNat ++ List.replicate 20 0)))
    (state.height / EPOCH_BLOCKS)

theorem isLeader_iff {state : LoopState} (hmembers : state.valSet.isEmpty = false) :
    state.engine.isLeader state.valSet state.height 0 (state.height / EPOCH_BLOCKS) ↔
      state.leader.map StakeEntry.id = some state.engine.localValidatorId := by
  unfold ConsensusEngine.isLeader leader
  rw [hmembers]
  dsimp only
  cases state.valSet.electLeader _ _ with
  | none => simp
  | some entry => simp

def ownParent (state : LoopState) : Option Hash32 :=
  (state.engine.stateStore.getBlockByHeight (state.height - 1)).map (·.header.hash)

variable [Nova]

/-- The proposal is the leader's and built on the node's own chain, and
`execute_and_apply_block` would accept it. -/
structure Proper (state : LoopState) (env : Env) (block : Block) : Prop where
  proposer : state.leader.map StakeEntry.id = some block.header.proposer
  parent : state.ownParent = some block.header.parentHash
  accepted : ∃ root, state.engine.outcome env.vm (env.now 0) block = .applied root

/-- The same in terms of the block and the store. -/
structure Sound (state : LoopState) (env : Env) (block : Block) : Prop where
  proposer : state.leader.map StakeEntry.id = some block.header.proposer
  parent : state.ownParent = some block.header.parentHash
  passes : Passes state.engine.isValidator (env.now 0) block
  accepts : state.engine.stateStore.Accepts block
  root : bodyRoot state.engine.stateStore block = block.header.stateRoot

theorem proper_iff {state : LoopState} {env : Env} {block : Block} :
    state.Proper env block ↔ state.Sound env block := by
  have happlied : (∃ root, state.engine.outcome env.vm (env.now 0) block = .applied root) ↔
      Passes state.engine.isValidator (env.now 0) block ∧
        state.engine.stateStore.Accepts block ∧
        bodyRoot state.engine.stateStore block = block.header.stateRoot :=
    outcome_applied_iff env.vm state.engine.mempool
  constructor
  · intro h
    obtain ⟨hpass, haccept, hroot⟩ := happlied.mp h.accepted
    exact ⟨h.proposer, h.parent, hpass, haccept, hroot⟩
  · intro h
    exact ⟨h.proposer, h.parent, happlied.mpr ⟨h.passes, h.accepts, h.root⟩⟩

/-! ## The prevotes of a turn -/

def ProperPrevotes (state : LoopState) (input : Input) : Prop :=
  ∀ v ∈ Action.votes (state.step input).2, v.voteType = .prevote →
    v.height = state.height ∧ ∃ block, input.event = .block block ∧
      v.blockHash = block.header.hash ∧ state.Proper input.env block

def SoundProposals (state : LoopState) (input : Input) : Prop :=
  ∀ block, input.event = .block block → state.admits input.env.randomPeer block →
    state.Sound input.env block

/-- With a key, an admitted proposal gets a prevote, and nothing else does. -/
theorem prevotes_step {state : LoopState} {input : Input} {sk : Bls.SecretKey}
    (hkey : state.engine.secretKey = some sk) {v : Vote} :
    (v ∈ Action.votes (state.step input).2 ∧ v.voteType = .prevote) ↔
      ∃ block, input.event = .block block ∧ state.admits input.env.randomPeer block ∧
        v = state.engine.castVote sk state.height state.round block.header.hash .prevote := by
  rw [votes_step, mem_casts hkey]
  constructor
  · rintro ⟨hprevote | ⟨vote, -, -, rfl⟩, htype⟩
    · exact hprevote
    · cases htype
  · rintro ⟨block, hevent, hadmits, rfl⟩
    exact ⟨.inl ⟨block, hevent, hadmits, rfl⟩, rfl⟩

theorem properPrevotes_iff {state : LoopState} {input : Input} {sk : Bls.SecretKey}
    (hkey : state.engine.secretKey = some sk) :
    state.ProperPrevotes input ↔ state.SoundProposals input := by
  constructor
  · intro h block hevent hadmits
    obtain ⟨hmem, htype⟩ := (prevotes_step hkey).mpr ⟨block, hevent, hadmits, rfl⟩
    obtain ⟨-, block', hevent', -, hproper⟩ := h _ hmem htype
    cases hevent.symm.trans hevent'
    exact proper_iff.mp hproper
  · intro h v hmem htype
    obtain ⟨block, hevent, hadmits, rfl⟩ := (prevotes_step hkey).mp ⟨hmem, htype⟩
    exact ⟨rfl, block, hevent, rfl, proper_iff.mpr (h block hevent hadmits)⟩

end

end LoopState

/-! ## Whole runs -/

/-- In every run of a node with a key, each prevote is for a proper proposal exactly
when each proposal that arrives at the height of the loop is sound. -/
theorem prevotes_proper_iff [Bls] [Blake3] [Nova] (engine : ConsensusEngine)
    {sk : Bls.SecretKey} (hkey : engine.secretKey = some sk) (generation : Nat)
    (inputs : List Input) :
    engineMachine.Admissible LoopState.ProperPrevotes (engine.enterState generation) inputs ↔
      engineMachine.Admissible LoopState.SoundProposals (engine.enterState generation) inputs := by
  have hkeep (state : LoopState) (input : Input) (h : state.engine.secretKey = some sk) :
      (engineMachine.step state input).1.engine.secretKey = some sk :=
    (LoopState.sameNode_step state input).secretKey.trans h
  apply engineMachine.admissible_iff_of_invariant
    (fun state => state.engine.secretKey = some sk) hkeep _ hkey
  intro state input h
  exact LoopState.properPrevotes_iff h

/-! ## A proposal of nobody, and one of the leader -/

section

attribute [local instance] Blake3.sum Bls.plain Nova.rejecting

theorem improper_prevoted :
    let state := (ConsensusEngine.plain [1, 2] 1).enterState 0
    let input := (Event.block blockA).input
    Action.votes (state.step input).2 = [Vote.plain 1 0 blockA.header.hash .prevote] ∧
      state.valSet.isEmpty = false ∧
      (state.valSet.getById blockA.header.proposer = none ∧ state.ownParent = none ∧
        state.engine.outcome Env.blank.vm 0 blockA = .rejected .missingBlsSignature) ∧
      ¬ engineMachine.Admissible LoopState.ProperPrevotes state [input] := by
  intro state input
  have hprevote : Action.votes (state.step input).2 =
      [Vote.plain 1 0 blockA.header.hash .prevote] := by
    decide +kernel
  refine ⟨hprevote, by decide +kernel, by decide +kernel, ?_⟩
  rintro ⟨hproper, -⟩
  have hmem : Vote.plain 1 0 blockA.header.hash .prevote ∈ Action.votes (state.step input).2 := by
    rw [hprevote]
    exact List.mem_singleton_self _
  obtain ⟨-, block, hevent, -, hblock⟩ := hproper _ hmem rfl
  cases hevent
  have hparent := hblock.parent
  exact absurd hparent (by decide +kernel)

def genesis : Block := emptyBlock 0 (fill 32 0)

def lone : @ConsensusEngine Bls.plain :=
  { ConsensusEngine.plain [1] 1 with
    stateStore := StateStore.openDb
      { validators := [ValidatorState.blank 1]
        chainHeight := some 0
        blocks := (∅ : Table BlockHash Block).insert genesis.blockHash genesis
        heightHash := (∅ : Table UInt64 BlockHash).insert 0 genesis.blockHash } }

def successor : Block :=
  let block := emptyBlock 1 genesis.blockHash
  { block with header := { block.header with proposer := fill 32 1 }, blsAggregateSig := [0] }

theorem leader_prevoted :
    engineMachine.Admissible LoopState.ProperPrevotes (lone.enterState 0)
      [(Event.block successor).input] := by
  have hsound : (lone.enterState 0).Sound Env.blank successor :=
    ⟨by decide +kernel, by decide +kernel, ⟨nofun, by decide, nofun⟩, by decide +kernel,
      by decide +kernel⟩
  refine (prevotes_proper_iff lone rfl 0 [(Event.block successor).input]).mpr ⟨?_, trivial⟩
  intro block hevent _
  cases hevent
  exact hsound

end

end NoirNet
