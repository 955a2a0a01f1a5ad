import NoirNet.Types

/-!
# Concrete inputs

A hash and blank records for the runs on fixed inputs that accompany the
general theorems.
-/

namespace NoirNet

@[reducible] def Blake3.sum : Blake3 where
  hash data := (Vector.replicate 32 0).set 0 (data.foldl (· + ·) 0)

/-- The root of the empty tree under `Blake3.sum`. -/
def emptyRoot : StateRoot := (Vector.replicate 32 0).set 0 39

@[reducible] def Blake3.successor : Blake3 where
  hash data := Vector.replicate 32 (data.getLastD 0 + 1)

/-- One byte in front, and the other in all places behind it. -/
def edge (first last : UInt8) : Bytes32 := (Vector.replicate 32 last).set 0 first

theorem getD_edge_first (first last : UInt8) : (edge first last).getD 0 0 = first := by
  simp [edge, Vector.getD]

theorem getD_edge_last (first last : UInt8) : (edge first last).getD 31 0 = last := by
  simp [edge, Vector.getD]

@[reducible] def Blake3.edges : Blake3 where
  hash data := edge (data.getD 20 0) (data.getLastD 0 + 1)

@[reducible] def Blake3.front : Blake3 where
  hash data := Vector.ofFn fun i => data.getD i 0

def plainSignature (key : Bytes32) (digest : Bytes) : Bytes64 :=
  Vector.ofFn fun i => (digest.take 32 ++ key.toList).getD i 0

@[reducible] def Ed25519.plain : Ed25519 where
  VerifyingKey := Bytes32
  sign := plainSignature
  publicKey seed := seed
  verifyingKeyFromBytes key := some key
  verify key digest sig := sig = plainSignature key digest

@[reducible] def X25519.plain : X25519 where
  publicKey secret := secret
  diffieHellman secret key := Vector.zipWith (· + ·) secret key

def plainTag (key : Bytes32) (nonce : Vector UInt8 12) : Bytes :=
  key.toList.take 4 ++ nonce.toList

@[reducible] def ChaCha20Poly1305.plain : ChaCha20Poly1305 where
  encrypt key nonce plaintext := plaintext ++ plainTag key nonce
  decrypt key nonce ciphertext :=
    if 16 ≤ ciphertext.length ∧ ciphertext.drop (ciphertext.length - 16) = plainTag key nonce then
      some (ciphertext.take (ciphertext.length - 16))
    else none

abbrev fill (n : Nat) (b : UInt8) : Vector UInt8 n := Vector.replicate n b

def SpendDescription.blank (nullifier : Hash32) : SpendDescription where
  anchor := fill 32 0
  nullifier := nullifier
  rk := fill 32 0
  cv := fill 32 0
  spendAuthSig := fill 64 0

def OutputDescription.blank (noteCommitment : Hash32) : OutputDescription where
  noteCommitment := noteCommitment
  ephemeralKey := fill 32 0
  encCiphertext := []
  outCiphertext := []
  cv := fill 32 0

def Transaction.blank (spends : List SpendDescription) (outputs : List OutputDescription)
    (aggregateSpendProof : Bytes) : Transaction where
  version := 1
  chainId := DEVNET_CHAIN_ID
  spends := spends
  outputs := outputs
  fee := MIN_FEE
  gasLimit := 0
  memo := none
  contractCall := none
  deployContract := none
  bindingSig := fill 64 0
  timestamp := 0
  aggregateSpendProof := aggregateSpendProof

def BlockHeader.blank (height : UInt64) (proposer : Bytes32) : BlockHeader where
  height := height
  parentHash := fill 32 0
  stateRoot := fill 32 0
  txRoot := fill 32 0
  nullifierRoot := fill 32 0
  timestamp := 0
  epoch := 0
  vrfOutput := fill 32 0
  proposer := proposer
  chainId := DEVNET_CHAIN_ID
  gasUsed := 0
  gasLimit := MAX_BLOCK_GAS

def Block.blank (height : UInt64) (proposer : Bytes32) (transactions : List Transaction) :
    Block where
  header := BlockHeader.blank height proposer
  transactions := transactions
  aggregateProof := []
  blsAggregateSig := []
  validatorBitfield := 0

/-- A block that moves no state, with the right root for the empty tree. -/
def emptyBlock (height : UInt64) (parentHash : BlockHash) : Block where
  header := { BlockHeader.blank height (fill 32 0) with
    parentHash := parentHash, stateRoot := emptyRoot }
  transactions := []
  aggregateProof := []
  blsAggregateSig := []
  validatorBitfield := 0

end NoirNet
