import NoirNet.Crypto.Commitment
import NoirNet.Crypto.Keys
import NoirNet.Lib.Hex
import NoirNet.Zk.Prover

/-!
# The wallet's transaction builder

The keys of `noirnet_types::address`, `noirnet_wallet::builder`, and the `send`
command of `noirnet-cli`.  What is drawn at random and the clock are arguments;
a panic is `none`.
-/

namespace NoirNet

open Lib Lib.Wire

/-! ## Keys -/

structure FullViewingKey where
  ak : Bytes32
  nk : Bytes32
  ovk : Bytes32
  deriving DecidableEq

structure SpendingKey where
  sk : Bytes32
  deriving DecidableEq

section

variable [Blake3]

def prf (sk : Bytes32) (tag : Bytes) : Bytes32 :=
  Blake3.hash ("NoirNet_prf_v1".toUTF8.toList ++ sk.toList ++ tag)

def SpendingKey.fromSeed (seed : Bytes) : SpendingKey where
  sk := Blake3.hash ("NoirNet_sk_v1".toUTF8.toList ++ seed)

def SpendingKey.toFvk (key : SpendingKey) : FullViewingKey where
  ak := prf key.sk "ak".toUTF8.toList
  nk := prf key.sk "nk".toUTF8.toList
  ovk := prf key.sk "ovk".toUTF8.toList

def IncomingViewKey.fromFvk (fvk : FullViewingKey) : IncomingViewKey where
  ivk := Blake3.hash ("NoirNet_ivk_v1".toUTF8.toList ++ fvk.ak.toList ++ fvk.nk.toList)

def valueCommitment (value : UInt64) (rcv : Bytes32) : Bytes32 :=
  Blake3.hash ("NoirNet_ValueCommit_v1".toUTF8.toList ++ putU64 value ++ rcv.toList)

end

def Transaction.nowObfuscated (now : UInt64) : UInt64 := now / 900 * 900

/-! ## The builder -/

/-- What one call of the builder draws, and the reading of the clock. -/
structure BuilderDraws where
  outRcm : Bytes32
  outRho : Bytes32
  /-- The ephemeral secret of `encrypt_note`. -/
  outEsk : Bytes32
  outRcv : Bytes32
  spendRcv : Bytes32
  /-- The seed of `Ed25519Keypair::generate`. -/
  spendSeed : Bytes32
  /-- What the prover draws. -/
  proverDraws : Bytes
  now : UInt64

namespace TxBuilder

variable [Blake3] [Ed25519] [Nova] [NovaProver]

/-- The mocked input of all three builders; it is not signed. -/
def mockSpend (draws : BuilderDraws) (nullifier : Hash32) (mockInputValue : UInt64) :
    SpendDescription where
  anchor := Hash32.ZERO
  nullifier := nullifier
  rk := Ed25519.publicKey draws.spendSeed
  cv := valueCommitment mockInputValue draws.spendRcv
  spendAuthSig := Vector.replicate 64 0

/-- The proof of all three builders: the secret key is 1 and the nullifier 2. -/
def mockProof (draws : BuilderDraws) (mockInputValue : UInt64) : Option Bytes :=
  generateMultiSpendProof draws.proverDraws [mockInputValue] [1] [2]

def sign (sk : SpendingKey) (tx : Transaction) : Transaction :=
  { tx with bindingSig :=
      createBindingSig (tx.spends.map (·.cv)) (tx.outputs.map (·.cv)) sk.sk tx.signingBytes }

/-- `TxBuilder::build_transfer`; the change is computed and dropped. -/
def buildTransfer [X25519] [ChaCha20Poly1305] (draws : BuilderDraws) (sk : SpendingKey)
    (recipient : PaymentAddress) (amount fee mockInputValue : UInt64) : Option Transaction := do
  let fvk := sk.toFvk
  let outNote : Note :=
    { value := amount
      rcm := draws.outRcm
      rho := draws.outRho
      pkD := recipient.pkD
      diversifier := recipient.diversifier }
  let outEnc := encryptNote draws.outEsk outNote recipient.pkD fvk.ovk
  let proof ← mockProof draws mockInputValue
  return sign sk
    { version := 1
      chainId := 1
      spends := [mockSpend draws (blake3Of "dummy_nf".toUTF8.toList) mockInputValue]
      outputs :=
        [{ noteCommitment := outNote.commitment
           ephemeralKey := outEnc.ephemeralKey
           encCiphertext := outEnc.encCiphertext
           outCiphertext := outEnc.outCiphertext
           cv := valueCommitment amount draws.outRcv }]
      fee := fee
      gasLimit := 21000
      memo := none
      contractCall := none
      deployContract := none
      bindingSig := Vector.replicate 64 0
      timestamp := Transaction.nowObfuscated draws.now
      aggregateSpendProof := proof }

def buildContractDeploy (draws : BuilderDraws) (sk : SpendingKey) (bytecode : Bytes)
    (fee gasLimit mockInputValue : UInt64) : Option Transaction := do
  let proof ← mockProof draws mockInputValue
  return sign sk
    { version := 1
      chainId := 1
      spends := [mockSpend draws (blake3Of "deploy_nf".toUTF8.toList) mockInputValue]
      outputs := []
      fee := fee
      gasLimit := gasLimit
      memo := none
      contractCall := none
      deployContract := some bytecode
      bindingSig := Vector.replicate 64 0
      timestamp := Transaction.nowObfuscated draws.now
      aggregateSpendProof := proof }

def buildContractCall (draws : BuilderDraws) (sk : SpendingKey) (contractId : Hash32)
    (method : String) (args : Bytes) (fee gasLimit mockInputValue : UInt64) :
    Option Transaction := do
  let callerCommitment := blake3Of sk.sk.toList
  let proof ← mockProof draws mockInputValue
  return sign sk
    { version := 1
      chainId := 1
      spends := [mockSpend draws (blake3Of "call_nf".toUTF8.toList) mockInputValue]
      outputs := []
      fee := fee
      gasLimit := gasLimit
      memo := none
      contractCall := some { contractId, method, args, gasLimit, callerCommitment }
      deployContract := none
      bindingSig := Vector.replicate 64 0
      timestamp := Transaction.nowObfuscated draws.now
      aggregateSpendProof := proof }

end TxBuilder

/-! ## The command line -/

namespace Cli

/-- `cmd_send`, up to the call of `noirnet_sendTransaction`: the transaction, and the text
that is submitted.  The sum wraps around. -/
def send [Blake3] [Ed25519] [X25519] [ChaCha20Poly1305] [Nova] [NovaProver]
    (draws : BuilderDraws) (toHex : String) (amount fee : UInt64) (keyHex : String) :
    Option (Transaction × String) := do
  let sk ← Hex.decodeArray 32 keyHex
  let pkD ← Hex.decodeArray 32 toHex
  let tx ← TxBuilder.buildTransfer draws { sk } { diversifier := Vector.replicate 11 0, pkD }
    amount fee (amount + fee)
  return (tx, Hex.encode tx.serialize)

end Cli

end NoirNet
