import Mathlib.Data.List.Zip
import NoirNet.Zk.SpendCircuit

/-!
# Making spend proofs

`generate_multi_spend_proof` of `noirnet_zk::proof`.  The prover of `nova-snark`
is external: it takes what it draws at random and the assignment of every step,
whether or not the constraint holds there, and returns the encoded proof.
-/

namespace NoirNet

class NovaProver [Nova] where
  /-- `Scalar::from` -/
  ofU64 : UInt64 → Nova.F
  /-- `RecursiveSNARK::new` with the first step, `prove_step` for each, `bincode::serialize` -/
  prove : Bytes → List (SpendWitness Nova.F) → Option Bytes

variable [Nova] [NovaProver]

def spendStep (value sk nullifier : UInt64) : SpendWitness Nova.F where
  noteValue := NovaProver.ofU64 value
  secretKey := NovaProver.ofU64 sk
  publicNullifier := NovaProver.ofU64 nullifier

/-- `generate_multi_spend_proof`; every error is `ZkError::ProvingFailed`. -/
def generateMultiSpendProof (draws : Bytes) (values sks nullifiers : List UInt64) :
    Option Bytes :=
  if values.isEmpty ∨ values.length ≠ sks.length ∨ values.length ≠ nullifiers.length then none
  else NovaProver.prove draws (List.zipWith3 spendStep values sks nullifiers)

/-- What the prover returns for one step or more verifies for their number and no other, and
only if the constraint holds in each; the numbers below `2 ^ 64` are different scalars. -/
structure NovaProver.Faithful : Prop where
  proves : ∀ draws w ws bytes, prove draws (w :: ws) = some bytes →
    bytes ≠ [] ∧ ∀ n, verifySpendProof bytes n = .ok true ↔
      n = (w :: ws).length ∧ SatisfiesSteps #v[0] (w :: ws)
  ofU64_one : ofU64 1 = 1
  ofU64_injective : Function.Injective ofU64

end NoirNet
