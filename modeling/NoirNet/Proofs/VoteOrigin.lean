import Mathlib.Data.Fintype.Fin
import NoirNet.Consensus.Concrete
import NoirNet.Consensus.Network

/-!
# Where a counted vote comes from

A vote is counted when the validator it names has signed its hash.  The
signature says nothing about height, round and kind, so what an honest validator
has cast for certain is some vote for that hash; and without validators nothing
is checked at all.
-/

namespace NoirNet

open Lib

/-- In any run against an adversary that cannot forge signatures, a vote that is
counted in front of a non-empty validator set names a member, and if the key of
that member is an honest node's, this node has broadcast a vote for the same
hash. -/
theorem counted_vote_origin {ι : Type} [DecidableEq ι] [Bls] [Blake3] [Nova]
    (engines : ι → ConsensusEngine) (publicKey : ι → Bls.PublicKey)
    (before : List (ι × Input)) (i : ι) (env : Env) (vote : Vote) (after : List (ι × Input))
    (hrun : networkMachine.Admissible (Network.Unforgeable publicKey) (Network.start engines)
      (before ++ (i, { env, event := .vote vote }) :: after)) :
    let net := networkMachine.final (Network.start engines) before
    let valSet :=
      (engines i).stateStore.getValidatorSet ((net.nodes i).height / EPOCH_BLOCKS)
    valSet.isEmpty = false → (net.nodes i).counts vote →
      ∃ entry ∈ valSet.validators, entry.id = vote.validatorId ∧
        ∀ j, Bls.publicKeyFromBytes entry.blsPubkey = some (publicKey j) →
          ∃ v ∈ net.votes j, v.blockHash = vote.blockHash := by
  intro net valSet hmembers hcounts
  have hregular : net.Regular engines := Network.regular_final engines before
  have hunforgeable : net.Unforgeable publicKey (i, { env, event := .vote vote }) :=
    (networkMachine.admissible_append.mp hrun).2.1
  have hvalSet : (net.nodes i).valSet = valSet := hregular.valSet i
  obtain ⟨-, -, hvalid, -⟩ := LoopState.counts_iff.mp hcounts
  rw [← hvalSet] at hmembers
  obtain ⟨entry, pk, sig, hentry, hpk, hsig, hverify⟩ :=
    LoopState.isValid_of_members hmembers hvalid
  rw [hvalSet] at hentry
  obtain ⟨hmem, hid⟩ := ValidatorSet.getById_mem hentry
  refine ⟨entry, hmem, hid, ?_⟩
  intro j hkey
  have hpk' : pk = publicKey j := Option.some.inj (hpk.symm.trans hkey)
  rw [hpk'] at hverify
  apply hregular.exists_vote
  exact hunforgeable vote rfl sig hsig j hverify

section

attribute [local instance] Blake3.sum Bls.plain Nova.rejecting

theorem counted_prevote_origin :
    ∃ entry ∈ ((StateStore.withValidators [1, 2]).getValidatorSet 0).validators,
      entry.id = fill 32 2 ∧
        ∀ j, Bls.publicKeyFromBytes entry.blsPubkey = some (plainKeys 2 j) →
          ∃ v ∈ (networkMachine.final (Network.start (plainNodes 2 [1, 2]))
            [(1, (Event.block blockA).input)]).votes j, v.blockHash = blockA.header.hash :=
  counted_vote_origin (plainNodes 2 [1, 2]) (plainKeys 2) [(1, (Event.block blockA).input)] 0
    Env.blank (Vote.plain 2 0 blockA.header.hash .prevote) [] (by decide +kernel)
    (by decide +kernel) (by decide +kernel)

theorem counted_vote_transplanted :
    let prevoted := [((1 : Fin 2), (Event.block blockA).input)]
    let stray := { Vote.plain 9 0 blockA.header.hash .prevote with signature := fill 96 0 }
    let moved := Vote.plain 2 0 blockA.header.hash .precommit
    let empty := networkMachine.final (Network.start (plainNodes 2 [])) prevoted
    let full := networkMachine.final (Network.start (plainNodes 2 [1, 2])) prevoted
    (networkMachine.Admissible (Network.Unforgeable (plainKeys 2)) (Network.start (plainNodes 2 []))
        (prevoted ++ [(0, (Event.vote stray).input)]) ∧
      (empty.nodes 0).counts stray ∧
      (empty.nodes 0).valSet.getById stray.validatorId = none) ∧
    networkMachine.Admissible (Network.Unforgeable (plainKeys 2))
      (Network.start (plainNodes 2 [1, 2]))
        (prevoted ++ [(0, (Event.vote moved).input)]) ∧
      (full.nodes 0).counts moved ∧
      (full.nodes 0).valSet.isEmpty = false ∧
      full.votes 1 = [{ moved with voteType := .prevote }] := by
  decide +kernel

end

end NoirNet
