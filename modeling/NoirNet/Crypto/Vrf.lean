import NoirNet.Crypto.Stealth

/-!
# The VRF of the leader choice

`vrf_prove` and `vrf_verify` of `noirnet_crypto::vrf`.
-/

namespace NoirNet

structure VrfOutput where
  output : Bytes32
  /-- The Ed25519 signature of the input -/
  proof : Bytes
  deriving DecidableEq

def vrfMessage (input : Bytes) : Bytes := "NoirNet_VRF_v1".toUTF8.toList ++ input

variable [Blake3] [Ed25519]

def vrfProve (signingKey : Bytes32) (input : Bytes) : VrfOutput :=
  let sig := Ed25519.sign signingKey (vrfMessage input)
  { output := Blake3.hash sig.toList
    proof := sig.toList }

def vrfVerify (verifyingKey : Bytes32) (input : Bytes) (vrfOutput : VrfOutput) : Bool :=
  match Ed25519.verifyingKeyFromBytes verifyingKey with
  | none => false
  | some vk =>
      if vrfOutput.proof.length ≠ 64 then false
      else
        let sig : Bytes64 := slice 64 vrfOutput.proof 0
        if Ed25519.verify vk (vrfMessage input) sig then
          vrfOutput.output == Blake3.hash sig.toList
        else false

end NoirNet
