import Mathlib.Algebra.Field.ZMod
import NoirNet.Concrete
import NoirNet.Consensus.Engine

/-!
# Concrete nodes

A signature scheme, a verifier without proofs and a store with validators, for
the runs of the consensus loop on fixed inputs.
-/

namespace NoirNet

@[reducible] def Bls.plain : Bls where
  SecretKey := UInt8
  PublicKey := UInt8
  Signature := Bytes96
  publicKeyFromBytes bytes := some bytes[0]
  signatureFromBytes := some
  signatureToBytes sig := sig
  sign sk message := (Vector.replicate 96 sk).set 1 (message.headD 0)
  verify sig message pk := sig[0] == pk && sig[1] == message.headD 0

instance : DecidableEq Bls.plain.PublicKey := inferInstanceAs (DecidableEq UInt8)

@[reducible] def Nova.rejecting : Nova where
  F := ZMod 2
  RecursiveSNARK := Empty
  deserialize _ := none
  verify p _ _ := p.elim

def Env.blank : Env where
  now _ := 0
  shuffle txs := txs
  shuffle_perm _ := .refl _
  randomPeer := []
  vm _ _ _ _ := none

def ValidatorState.blank (key : UInt8) : ValidatorState where
  registration :=
    { blsPubkey := fill 48 key
      networkPubkey := fill 32 0
      stake := 1
      commissionBps := 0
      epoch := 0
      signature := fill 64 0 }
  status := .active
  ownStake := 1
  delegatedStake := 0
  consecutiveMisses := 0
  lastSignedHeight := 0
  pendingRewards := 0
  totalSlashed := 0

/-- The store behind a genesis block, with one validator a key. -/
def StateStore.withValidators (keys : List UInt8) : StateStore :=
  StateStore.openDb { validators := keys.map ValidatorState.blank, chainHeight := some 0 }

def ConsensusEngine.plain (keys : List UInt8) (key : UInt8) : @ConsensusEngine Bls.plain :=
  @ConsensusEngine.new Bls.plain (StateStore.withValidators keys) {} (some (fill 32 key, key))

def plainNodes (n : Nat) (keys : List UInt8) (i : Fin n) : @ConsensusEngine Bls.plain :=
  ConsensusEngine.plain keys (i.val + 1).toUInt8

def plainKeys (n : Nat) (i : Fin n) : UInt8 := (i.val + 1).toUInt8

def Vote.plain (key : UInt8) (round : UInt32) (hash : Hash32) (voteType : VoteType) : Vote where
  height := 1
  round := round
  blockHash := hash
  voteType := voteType
  validatorId := fill 32 key
  signature := letI := Bls.plain; Bls.sign (show Bls.SecretKey from key) hash.toList

def Event.input (event : Event) : Input := { env := Env.blank, event }

def blockA : Block := Block.blank 1 (fill 32 10) []

def blockB : Block := Block.blank 1 (fill 32 11) []

end NoirNet
