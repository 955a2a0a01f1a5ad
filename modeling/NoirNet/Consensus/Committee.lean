import Mathlib.Data.Fintype.Basic
import NoirNet.Consensus.Network
import NoirNet.Lib.Quorum

/-!
# Committees

The validators a height is voted on by, some of them honest nodes, and the votes
of the honest ones as a ballot.  `Disciplined` says what a step has to meet for
the ballot to stay locked, none of which the loop checks: votes are counted for
what they were cast for, and nobody prevotes twice in a round, turns against its
own precommit, or precommits in a round it has already left.
-/

namespace NoirNet

open Lib

/-- The honest nodes of a network with the validators a height is voted on by,
less than a third of which are not honest. -/
structure Committee (ι : Type) [Fintype ι] [Bls] (height : UInt64) where
  store : StateStore
  engines : ι → ConsensusEngine
  publicKey : ι → Bls.PublicKey
  /-- All honest nodes know the same validators. -/
  shared : ∀ i, (engines i).stateStore.getAllValidators = store.getAllValidators
  /-- Different honest validators go by different ids. -/
  distinct : ∀ i j, (engines i).secretKey.isSome → (engines j).secretKey.isSome →
    (engines i).localValidatorId = (engines j).localValidatorId → i = j
  /-- An honest node with a key is a member, registered with its public key. -/
  registered : ∀ i, (engines i).secretKey.isSome →
    ∃ entry ∈ (store.getValidatorSet (height / EPOCH_BLOCKS)).getById
        (engines i).localValidatorId,
      Bls.publicKeyFromBytes entry.blsPubkey = some (publicKey i)
  few :
    (((store.getValidatorSet (height / EPOCH_BLOCKS)).validators.map (·.id)).toFinset.filter
        fun id => ¬ ∃ i, (engines i).secretKey.isSome ∧
          (engines i).localValidatorId = id).card * 3 <
      (store.getValidatorSet (height / EPOCH_BLOCKS)).len

namespace Committee

variable {ι : Type} [Fintype ι] [Bls] {height : UInt64} (committee : Committee ι height)

def valSet : ValidatorSet := committee.store.getValidatorSet (height / EPOCH_BLOCKS)

def Is (i : ι) (id : Bytes32) : Prop :=
  (committee.engines i).secretKey.isSome ∧ (committee.engines i).localValidatorId = id

instance (i : ι) (id : Bytes32) : Decidable (committee.Is i id) :=
  inferInstanceAs (Decidable (_ ∧ _))

def members : Finset Bytes32 := (committee.valSet.validators.map (·.id)).toFinset

def faulty : Finset Bytes32 := committee.members.filter fun id => ¬ ∃ i, committee.Is i id

def Cast (net : Network ι) (voteType : VoteType) (round : Nat) (hash : Hash32) (id : Bytes32) :
    Prop :=
  ∃ i, committee.Is i id ∧ ∃ v ∈ net.votes i, v.height = height ∧ v.round.toNat = round ∧
    v.voteType = voteType ∧ v.blockHash = hash

def ballot (net : Network ι) : Ballot Bytes32 Nat Hash32 where
  size := committee.valSet.len
  members := committee.members
  faulty := committee.faulty
  prevoted := committee.Cast net .prevote
  precommitted := committee.Cast net .precommit

def Certified (net : Network ι) (voteType : VoteType) (round : Nat) (hash : Hash32) : Prop :=
  (committee.ballot net).Certified (committee.Cast net voteType) round hash

/-- What the loop does not check about the input it receives at the height. -/
structure Disciplined [Blake3] (net : Network ι) (arrival : ι × Input) : Prop where
  /-- A vote that is counted for an honest validator who has voted for its hash
  says what one of the votes cast by this validator says. -/
  original : (net.nodes arrival.1).height = height → ∀ vote, arrival.2.event = .vote vote →
    (net.nodes arrival.1).counts vote → ∀ i, committee.Is i vote.validatorId →
      (∃ v ∈ net.votes i, v.blockHash = vote.blockHash) →
        committee.Cast net vote.voteType vote.round.toNat vote.blockHash vote.validatorId
  /-- No proposal is admitted behind a prevote for another one in the same round. -/
  once : (net.nodes arrival.1).height = height → ∀ block, arrival.2.event = .block block →
    (net.nodes arrival.1).admits arrival.2.env.randomPeer block →
      ∀ v ∈ net.votes arrival.1, v.height = height → v.voteType = .prevote →
        v.round = (net.nodes arrival.1).round → v.blockHash = block.header.hash
  /-- No proposal is admitted behind a precommit for another one in an earlier
  round, unless a quorum has prevoted for it in between. -/
  lock : (net.nodes arrival.1).height = height → ∀ block, arrival.2.event = .block block →
    (net.nodes arrival.1).admits arrival.2.env.randomPeer block →
      ∀ v ∈ net.votes arrival.1, v.height = height → v.voteType = .precommit →
        v.round < (net.nodes arrival.1).round → v.blockHash ≠ block.header.hash →
          ∃ between, v.round.toNat < between ∧
            between < (net.nodes arrival.1).round.toNat ∧
            committee.Certified net .prevote between block.header.hash
  /-- No prevote quorum completes behind a prevote for another hash in a later
  round. -/
  forward : (net.nodes arrival.1).height = height → ∀ vote, arrival.2.event = .vote vote →
    (net.nodes arrival.1).completesPrevote vote →
      ∀ v ∈ net.votes arrival.1, v.height = height → v.voteType = .prevote →
        v.blockHash ≠ vote.blockHash → v.round ≤ (net.nodes arrival.1).round

/-! ## Members -/

theorem isEmpty_valSet : committee.valSet.isEmpty = false := by
  have hfew := committee.few
  have hpos : 0 < committee.valSet.len := by
    unfold valSet
    omega
  cases h : committee.valSet.validators with
  | nil => simp [ValidatorSet.len, h] at hpos
  | cons entry rest => simp [ValidatorSet.isEmpty, h]

theorem card_members_le : committee.members.card ≤ committee.valSet.len := by
  calc
    committee.members.card ≤ (committee.valSet.validators.map (·.id)).length :=
      List.toFinset_card_le _
    _ = committee.valSet.len := List.length_map _

theorem card_faulty_lt : committee.faulty.card * 3 < committee.valSet.len := committee.few

variable {committee}

theorem mem_members {entry : StakeEntry} {id : Bytes32}
    (h : committee.valSet.getById id = some entry) : id ∈ committee.members := by
  obtain ⟨hmem, hid⟩ := ValidatorSet.getById_mem h
  rw [members, List.mem_toFinset, List.mem_map]
  exact ⟨entry, hmem, hid⟩

theorem Is.registered {i : ι} {id : Bytes32} (h : committee.Is i id) :
    ∃ entry, committee.valSet.getById id = some entry ∧
      Bls.publicKeyFromBytes entry.blsPubkey = some (committee.publicKey i) := by
  obtain ⟨hkey, rfl⟩ := h
  exact committee.registered i hkey

theorem Is.mem_members {i : ι} {id : Bytes32} (h : committee.Is i id) :
    id ∈ committee.members := by
  obtain ⟨entry, hentry, -⟩ := h.registered
  exact Committee.mem_members hentry

theorem Is.unique {i j : ι} {id : Bytes32} (hi : committee.Is i id) (hj : committee.Is j id) :
    i = j :=
  committee.distinct i j hi.1 hj.1 (hi.2.trans hj.2.symm)

theorem exists_is {id : Bytes32} (hmem : id ∈ committee.members)
    (hcorrect : id ∉ committee.faulty) :
    ∃ i, committee.Is i id := by
  by_contra hnone
  exact hcorrect (Finset.mem_filter.mpr ⟨hmem, hnone⟩)

theorem Cast.exists_vote {net : Network ι} {voteType : VoteType} {round : Nat} {hash : Hash32}
    {id : Bytes32} (h : committee.Cast net voteType round hash id) {i : ι}
    (hi : committee.Is i id) :
    ∃ v ∈ net.votes i, v.height = height ∧ v.round.toNat = round ∧ v.voteType = voteType ∧
      v.blockHash = hash := by
  obtain ⟨j, hj, hvote⟩ := h
  rwa [hj.unique hi] at hvote

end Committee

end NoirNet
