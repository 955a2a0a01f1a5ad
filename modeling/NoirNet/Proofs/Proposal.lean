import NoirNet.Consensus.Concrete
import NoirNet.Consensus.Writes
import NoirNet.Proofs.Admission
import NoirNet.Proofs.Selection
import NoirNet.Zk.Rational

/-!
# A committed proposal in front of phase 1

The block builder leaves `bls_aggregate_sig` empty and nothing fills it in
before the commit executes `current_block`.  A node that runs as a validator
asks for the signature first, so it turns away what it has just committed; a
node that does not, turns it away only if its clock is a minute behind.
-/

namespace NoirNet

open Lib

section

variable [Blake3] [Nova]

/-- The body of a proposal over selected transactions passes phase 1. -/
theorem verifyTransaction_buildBlock {pool : PrivateMempool}
    {shuffle : List Transaction → List Transaction} (hshuffle : ∀ txs, (shuffle txs).Perm txs)
    {maxTxs : Nat} {maxGas : UInt64}
    (hproven : ∀ tx ∈ pool.selectForBlock shuffle maxTxs maxGas, tx.Proven)
    (leader : StateStore) (proposer vrfOutput : Bytes32) (timestamp epoch : UInt64) :
    ∀ tx ∈ (BlockBuilder.buildBlock leader (pool.selectForBlock shuffle maxTxs maxGas) proposer
      vrfOutput timestamp epoch).transactions, verifyTransaction tx = .ok () := by
  intro tx htx
  have hselected : tx ∈ pool.selectForBlock shuffle maxTxs maxGas :=
    (BlockBuilder.fillBlock_sublist 0 _).subset htx
  have hformat := (pooled_of_selected hshuffle hselected).2
  exact verifyTransaction_ok_iff.mpr ⟨hproven tx hselected, hformat⟩

theorem passes_buildBlock_iff {isValidator : Bool} {now : UInt64} {leader : StateStore}
    {txs : List Transaction} {proposer vrfOutput : Bytes32} {timestamp epoch : UInt64}
    (hverified : ∀ tx ∈ (BlockBuilder.buildBlock leader txs proposer vrfOutput timestamp
      epoch).transactions, verifyTransaction tx = .ok ()) :
    Passes isValidator now
        (BlockBuilder.buildBlock leader txs proposer vrfOutput timestamp epoch) ↔
      isValidator = false ∧ timestamp ≤ now + 60 := by
  constructor
  · intro hpass
    refine ⟨?_, hpass.timely⟩
    by_contra hvalidator
    exact hpass.signed (by simpa using hvalidator) rfl
  · rintro ⟨rfl, htimely⟩
    exact ⟨nofun, htimely, hverified⟩

/-- Whatever store the leader built on, in any state in which the node holds the
proposal and a vote decides: the proposal is executed, and it gets through phase
1 exactly when the node is no validator and the timestamp is at most a minute
ahead of its clock. -/
theorem committed_proposal_iff [Bls] (state : LoopState) (env : Env) (vote : Vote)
    (leader : StateStore) (pool : PrivateMempool) (shuffle : List Transaction → List Transaction)
    (hshuffle : ∀ txs, (shuffle txs).Perm txs) (maxTxs : Nat) (maxGas : UInt64)
    (proposer vrfOutput : Bytes32) (timestamp epoch : UInt64)
    (hproven : ∀ tx ∈ pool.selectForBlock shuffle maxTxs maxGas, tx.Proven)
    (block : Block) (hbuilt : block = BlockBuilder.buildBlock leader
      (pool.selectForBlock shuffle maxTxs maxGas) proposer vrfOutput timestamp epoch)
    (hholds : state.currentBlock = some block) (hdecides : state.decides vote) :
    ∃ outcome,
      Action.outcomes (state.step { env, event := .vote vote }).2 = [(block, outcome)] ∧
      ((∀ reason, outcome ≠ .rejected reason) ↔
        state.engine.isValidator = false ∧ timestamp ≤ env.now 0 + 60) := by
  refine ⟨state.engine.outcome env.vm (env.now 0) block, ?_, ?_⟩
  · rw [LoopState.outcomes_step]
    simp only [hdecides, if_true, hholds]
    rfl
  · subst hbuilt
    have hverified := verifyTransaction_buildBlock hshuffle hproven leader proposer vrfOutput
      timestamp epoch
    rw [← passes_buildBlock_iff hverified, ← not_exists]
    exact (not_congr (outcome_rejected_iff env.vm state.engine.mempool)).trans not_not

end

/-! ## Two validators -/

section

attribute [local instance] Blake3.sum Bls.plain Nova.rejecting

def emptyProposal : Block :=
  BlockBuilder.buildBlock (StateStore.withValidators [1, 2])
    (({} : PrivateMempool).selectForBlock (fun txs => txs) 10000 MAX_BLOCK_GAS) (fill 32 1)
    (fill 32 0) 0 1

def committing (engine : ConsensusEngine) : LoopState :=
  engineMachine.final (engine.enterState 0)
    [(Event.block emptyProposal).input,
      (Event.vote (Vote.plain 1 0 emptyProposal.header.hash .prevote)).input,
      (Event.vote (Vote.plain 2 0 emptyProposal.header.hash .prevote)).input,
      (Event.vote (Vote.plain 1 0 emptyProposal.header.hash .precommit)).input]

def lastPrecommit : Vote := Vote.plain 2 0 emptyProposal.header.hash .precommit

theorem validator_refuses_commit :
    let state := committing (ConsensusEngine.plain [1, 2] 1)
    state.engine.isValidator = true ∧
      Action.commits (state.step (Event.vote lastPrecommit).input).2 =
        [(1, emptyProposal.header.hash)] ∧
      Action.outcomes (state.step (Event.vote lastPrecommit).input).2 =
        [(emptyProposal, .rejected .missingBlsSignature)] := by
  decide +kernel

end

/-! ## A node without a key -/

section

attribute [local instance] Blake3.sum Bls.plain RationalNova.nova

def proven : Transaction := { payment 1 with aggregateSpendProof := [1, 0] }

def provenProposal : Block :=
  BlockBuilder.buildBlock (StateStore.withValidators [1, 2])
    ((({} : PrivateMempool).inserted proven).selectForBlock (fun txs => txs) 10000 MAX_BLOCK_GAS)
    (fill 32 1) (fill 32 0) 0 1

def provenVote (key : UInt8) (voteType : VoteType) : Vote :=
  Vote.plain key 0 provenProposal.header.hash voteType

def observer : LoopState :=
  engineMachine.final
    ((ConsensusEngine.new (StateStore.withValidators [1, 2]) {} none).enterState 0)
    [(Event.block provenProposal).input, (Event.vote (provenVote 1 .prevote)).input,
      (Event.vote (provenVote 2 .prevote)).input, (Event.vote (provenVote 1 .precommit)).input]

theorem observer_executes_commit :
    provenProposal.transactions = [proven] ∧ ∃ outcome,
      Action.outcomes (observer.step (Event.vote (provenVote 2 .precommit)).input).2 =
        [(provenProposal, outcome)] ∧
      ∀ reason, outcome ≠ .rejected reason := by
  have hselected : (({} : PrivateMempool).inserted proven).selectForBlock (fun txs => txs) 10000
      MAX_BLOCK_GAS = [proven] := by
    decide +kernel
  have hproven : proven.Proven := fun _ => ⟨List.cons_ne_nil _ _, rfl⟩
  obtain ⟨outcome, houtcomes, haccepted⟩ := committed_proposal_iff observer Env.blank
    (provenVote 2 .precommit) _ (({} : PrivateMempool).inserted proven) (fun txs => txs)
    (fun _ => .refl _) 10000 MAX_BLOCK_GAS _ _ 0 1
    (by rw [hselected, List.forall_mem_singleton]; exact hproven) provenProposal rfl
    (by decide +kernel) (by decide +kernel)
  exact ⟨by decide +kernel, outcome, houtcomes, haccepted.mpr (by decide +kernel)⟩

end

end NoirNet
