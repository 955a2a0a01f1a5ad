import Mathlib.Data.Finset.Card
import NoirNet.Lib.Table
import NoirNet.Types

/-!
# The round state

`noirnet_consensus::bft`: votes counted per block hash, and the phase of the
current round.
-/

namespace NoirNet

open Lib

inductive BftPhase where
  | propose
  | prevote
  | precommit
  | commit
  deriving DecidableEq

structure BftRoundState where
  height : UInt64
  round : UInt32
  phase : BftPhase
  prevotes : Table Hash32 (Finset Bytes32)
  precommits : Table Hash32 (Finset Bytes32)
  totalValidators : Nat

namespace BftRoundState

def new (height : UInt64) (round : UInt32) (totalValidators : Nat) : BftRoundState where
  height := height
  round := round
  phase := .propose
  prevotes := ∅
  precommits := ∅
  totalValidators := totalValidators

def voters (bft : BftRoundState) (voteType : VoteType) (hash : Hash32) : Finset Bytes32 :=
  match voteType with
  | .prevote => bft.prevotes[hash]?.getD ∅
  | .precommit => bft.precommits[hash]?.getD ∅

/-- `BftRoundState::add_vote`: the state, and whether the vote is new. -/
def addVote (bft : BftRoundState) (vote : Vote) : BftRoundState × Bool :=
  if vote.height ≠ bft.height ∨ vote.round ≠ bft.round then (bft, false)
  else
    match vote.voteType with
    | .prevote =>
        let entry := bft.prevotes[vote.blockHash]?.getD ∅
        ({ bft with
            prevotes := bft.prevotes.insert vote.blockHash (insert vote.validatorId entry) },
          vote.validatorId ∉ entry)
    | .precommit =>
        let entry := bft.precommits[vote.blockHash]?.getD ∅
        ({ bft with
            precommits := bft.precommits.insert vote.blockHash (insert vote.validatorId entry) },
          vote.validatorId ∉ entry)

/-- `has_quorum_prevote` and `has_quorum_precommit`. -/
def hasQuorum (bft : BftRoundState) (voteType : VoteType) (hash : Hash32) : Bool :=
  (bft.voters voteType hash).card * 3 > bft.totalValidators * 2

def hasQuorumPrevote (bft : BftRoundState) (hash : Hash32) : Bool := bft.hasQuorum .prevote hash

def hasQuorumPrecommit (bft : BftRoundState) (hash : Hash32) : Bool :=
  bft.hasQuorum .precommit hash

def tryAdvancePhase (bft : BftRoundState) (hash : Hash32) : BftRoundState × Option BftPhase :=
  if bft.phase = .propose then
    ({ bft with phase := .prevote }, some .prevote)
  else if bft.phase = .prevote ∧ bft.hasQuorumPrevote hash then
    ({ bft with phase := .precommit }, some .precommit)
  else if bft.phase = .precommit ∧ bft.hasQuorumPrecommit hash then
    ({ bft with phase := .commit }, some .commit)
  else (bft, none)

/-! ## Voters -/

@[simp] theorem voters_new (height : UInt64) (round : UInt32) (totalValidators : Nat)
    (voteType : VoteType) (hash : Hash32) :
    (new height round totalValidators).voters voteType hash = ∅ := by
  cases voteType <;> simp [new, voters]

def Matches (bft : BftRoundState) (vote : Vote) : Prop :=
  vote.height = bft.height ∧ vote.round = bft.round

theorem addVote_of_not_matches {bft : BftRoundState} {vote : Vote} (h : ¬ bft.Matches vote) :
    bft.addVote vote = (bft, false) := by
  rw [addVote, if_pos]
  by_cases hheight : vote.height = bft.height
  · exact .inr fun hround => h ⟨hheight, hround⟩
  · exact .inl hheight

theorem mem_voters_addVote {bft : BftRoundState} {vote : Vote} {voteType : VoteType}
    {hash : Hash32} {id : Bytes32} :
    id ∈ (bft.addVote vote).1.voters voteType hash ↔
      id ∈ bft.voters voteType hash ∨
        bft.Matches vote ∧ vote.voteType = voteType ∧ vote.blockHash = hash ∧
          vote.validatorId = id := by
  by_cases hmatch : bft.Matches vote
  · rw [addVote, if_neg (by simp [hmatch.1, hmatch.2])]
    cases hvoteType : vote.voteType <;> cases voteType <;>
      simp only [voters, Table.get_insert, hmatch, true_and, false_and, or_false, reduceCtorEq]
    all_goals
      by_cases hhash : vote.blockHash = hash
      · subst hhash
        simp [eq_comm, or_comm]
      · simp [hhash]
  · rw [addVote_of_not_matches hmatch]
    simp [hmatch]

/-! ## Fields that votes and phases leave alone -/

@[simp] theorem addVote_height (bft : BftRoundState) (vote : Vote) :
    (bft.addVote vote).1.height = bft.height := by
  unfold addVote
  split
  · rfl
  · split <;> rfl

@[simp] theorem addVote_round (bft : BftRoundState) (vote : Vote) :
    (bft.addVote vote).1.round = bft.round := by
  unfold addVote
  split
  · rfl
  · split <;> rfl

@[simp] theorem addVote_phase (bft : BftRoundState) (vote : Vote) :
    (bft.addVote vote).1.phase = bft.phase := by
  unfold addVote
  split
  · rfl
  · split <;> rfl

@[simp] theorem addVote_totalValidators (bft : BftRoundState) (vote : Vote) :
    (bft.addVote vote).1.totalValidators = bft.totalValidators := by
  unfold addVote
  split
  · rfl
  · split <;> rfl

theorem tryAdvancePhase_fst (bft : BftRoundState) (hash : Hash32) :
    ∃ phase, (bft.tryAdvancePhase hash).1 = { bft with phase } := by
  unfold tryAdvancePhase
  split
  · exact ⟨_, rfl⟩
  · split
    · exact ⟨_, rfl⟩
    · split <;> exact ⟨_, rfl⟩

@[simp] theorem tryAdvancePhase_height (bft : BftRoundState) (hash : Hash32) :
    (bft.tryAdvancePhase hash).1.height = bft.height := by
  obtain ⟨_, h⟩ := bft.tryAdvancePhase_fst hash
  rw [h]

@[simp] theorem tryAdvancePhase_round (bft : BftRoundState) (hash : Hash32) :
    (bft.tryAdvancePhase hash).1.round = bft.round := by
  obtain ⟨_, h⟩ := bft.tryAdvancePhase_fst hash
  rw [h]

@[simp] theorem tryAdvancePhase_totalValidators (bft : BftRoundState) (hash : Hash32) :
    (bft.tryAdvancePhase hash).1.totalValidators = bft.totalValidators := by
  obtain ⟨_, h⟩ := bft.tryAdvancePhase_fst hash
  rw [h]

@[simp] theorem tryAdvancePhase_voters (bft : BftRoundState) (hash hash' : Hash32)
    (voteType : VoteType) :
    (bft.tryAdvancePhase hash).1.voters voteType hash' = bft.voters voteType hash' := by
  obtain ⟨_, h⟩ := bft.tryAdvancePhase_fst hash
  rw [h]
  cases voteType <;> rfl

/-! ## Advancing -/

theorem tryAdvancePhase_eq_precommit {bft : BftRoundState} {hash : Hash32} :
    (bft.tryAdvancePhase hash).2 = some .precommit ↔
      bft.phase = .prevote ∧ bft.hasQuorum .prevote hash := by
  unfold tryAdvancePhase hasQuorumPrevote hasQuorumPrecommit
  cases hphase : bft.phase with
  | propose => simp
  | prevote => cases hquorum : bft.hasQuorum .prevote hash <;> simp
  | precommit => cases hquorum : bft.hasQuorum .precommit hash <;> simp
  | commit => simp

theorem tryAdvancePhase_eq_commit {bft : BftRoundState} {hash : Hash32} :
    (bft.tryAdvancePhase hash).2 = some .commit ↔
      bft.phase = .precommit ∧ bft.hasQuorum .precommit hash := by
  unfold tryAdvancePhase hasQuorumPrevote hasQuorumPrecommit
  cases hphase : bft.phase with
  | propose => simp
  | prevote => cases hquorum : bft.hasQuorum .prevote hash <;> simp
  | precommit => cases hquorum : bft.hasQuorum .precommit hash <;> simp
  | commit => simp

def PastPrevote (bft : BftRoundState) : Prop := bft.phase = .precommit ∨ bft.phase = .commit

theorem pastPrevote_of_precommit {bft : BftRoundState} {hash : Hash32}
    (h : (bft.tryAdvancePhase hash).2 = some .precommit) :
    (bft.tryAdvancePhase hash).1.PastPrevote := by
  obtain ⟨hphase, hquorum⟩ := tryAdvancePhase_eq_precommit.mp h
  left
  rw [tryAdvancePhase, if_neg (by simp [hphase]), if_pos ⟨hphase, hquorum⟩]

/-- A round never goes back in front of its prevote quorum. -/
theorem PastPrevote.tryAdvancePhase {bft : BftRoundState} (h : bft.PastPrevote) (hash : Hash32) :
    (bft.tryAdvancePhase hash).1.PastPrevote := by
  unfold BftRoundState.tryAdvancePhase
  rcases h with h | h
  · by_cases hquorum : bft.hasQuorumPrecommit hash
    · simp [h, hquorum, PastPrevote]
    · simp [h, hquorum, PastPrevote]
  · simp [h, PastPrevote]

theorem PastPrevote.addVote {bft : BftRoundState} (h : bft.PastPrevote) (vote : Vote) :
    (bft.addVote vote).1.PastPrevote := by
  rw [PastPrevote, addVote_phase]
  exact h

end BftRoundState

end NoirNet
