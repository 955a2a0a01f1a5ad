import NoirNet.Ledger

/-!
# Binding signatures

`create_binding_sig` and `verify_binding_sig` of `noirnet_crypto::keys`.
-/

namespace NoirNet

variable [Blake3]

def bindingInput (spendCvs outputCvs : List Bytes32) (txBytes : Bytes) : Bytes :=
  "NoirNet_binding_sig_v1".toUTF8.toList ++ spendCvs.flatMap Vector.toList ++
    outputCvs.flatMap Vector.toList ++ txBytes

def createBindingSig [Ed25519] (spendCvs outputCvs : List Bytes32) (signingKey : Bytes32)
    (txBytes : Bytes) : Bytes64 :=
  Ed25519.sign signingKey (Blake3.hash (bindingInput spendCvs outputCvs txBytes)).toList

def verifyBindingSig [Ed25519] (spendCvs outputCvs : List Bytes32) (sig : Bytes64)
    (verifyingKey : Bytes32) (txBytes : Bytes) : Bool :=
  (Ed25519.verifyingKeyFromBytes verifyingKey).any fun vk =>
    Ed25519.verify vk (Blake3.hash (bindingInput spendCvs outputCvs txBytes)).toList sig

/-! ## What is assumed of Ed25519 -/

def Ed25519.Correct [Ed25519] : Prop :=
  ∀ (seed digest : Bytes32), ∃ vk, verifyingKeyFromBytes (publicKey seed) = some vk ∧
    verify vk digest.toList (sign seed digest.toList)

/-- The signature of a digest verifies for no other digest. -/
def Ed25519.Unforgeable [Ed25519] : Prop :=
  ∀ (seed digest digest' : Bytes32) vk, verifyingKeyFromBytes (publicKey seed) = some vk →
    verify vk digest'.toList (sign seed digest.toList) → digest' = digest

end NoirNet
