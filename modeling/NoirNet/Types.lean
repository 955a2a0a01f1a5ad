import NoirNet.Primitives

/-!
# Data types of the chain

The records of `noirnet_types`, field for field.  `usize` is 64 bits wide.
-/

namespace NoirNet

/-! ## Constants -/

def DEVNET_CHAIN_ID : UInt32 := 42
def EPOCH_BLOCKS : UInt64 := 100
def MAX_BLOCK_GAS : UInt64 := 100000000
def MAX_TX_GAS : UInt64 := 10000000
def MIN_FEE : UInt64 := 10000
def MAX_MEMPOOL_SIZE : Nat := 10000
def HALVING_INTERVAL : UInt64 := 40320000
def INITIAL_BLOCK_REWARD : U128 := 40000000000
def TAIL_EMISSION : U128 := 10000000
def MAX_SUPPLY : U128 := 21000000000000000
def FEE_TIERS : List UInt64 := [10000, 100000, 1000000]
def MAX_P2P_MESSAGE_SIZE : Nat := 10485760
def MAX_CONTRACT_SIZE : Nat := 1048576
def MAX_MEMO_SIZE : Nat := 512
def MAX_SPENDS_PER_TX : Nat := 16
def MAX_OUTPUTS_PER_TX : Nat := 16
def NOTE_COMMITMENT_TREE_DEPTH : Nat := 32
def ANCHOR_EXPIRY_BLOCKS : UInt64 := 100

/-- `ValidatorId([u8; 48])`, a compressed BLS key. -/
abbrev ValidatorId := Bytes48

abbrev TxId := Hash32
abbrev BlockHash := Hash32
abbrev StateRoot := Hash32

/-! ## Transactions -/

structure SpendDescription where
  anchor : Hash32
  nullifier : Hash32
  rk : Bytes32
  cv : Bytes32
  spendAuthSig : Bytes64
  deriving DecidableEq

structure OutputDescription where
  noteCommitment : Hash32
  ephemeralKey : Bytes32
  encCiphertext : Bytes
  outCiphertext : Bytes
  cv : Bytes32
  deriving DecidableEq

structure EncryptedMemo where
  bytes : Bytes
  deriving DecidableEq

structure ContractCall where
  contractId : Hash32
  method : String
  args : Bytes
  gasLimit : UInt64
  callerCommitment : Bytes32
  deriving DecidableEq

structure Transaction where
  version : UInt8
  chainId : UInt32
  spends : List SpendDescription
  outputs : List OutputDescription
  fee : UInt64
  gasLimit : UInt64
  memo : Option EncryptedMemo
  contractCall : Option ContractCall
  deployContract : Option Bytes
  bindingSig : Bytes64
  timestamp : UInt64
  aggregateSpendProof : Bytes
  deriving DecidableEq

/-! ## Notes and addresses -/

/-- A decrypted note, as the wallet holds it. -/
structure Note where
  value : UInt64
  rcm : Bytes32
  rho : Bytes32
  pkD : Bytes32
  diversifier : Vector UInt8 11
  deriving DecidableEq

structure PaymentAddress where
  diversifier : Vector UInt8 11
  pkD : Bytes32
  deriving DecidableEq

structure IncomingViewKey where
  ivk : Bytes32
  deriving DecidableEq

/-! ## Blocks and synchronisation -/

structure BlockHeader where
  height : UInt64
  parentHash : Hash32
  stateRoot : Hash32
  txRoot : Hash32
  nullifierRoot : Hash32
  timestamp : UInt64
  epoch : UInt64
  vrfOutput : Bytes32
  proposer : Bytes32
  chainId : UInt32
  gasUsed : UInt64
  gasLimit : UInt64
  deriving DecidableEq

structure Block where
  header : BlockHeader
  transactions : List Transaction
  aggregateProof : Bytes
  blsAggregateSig : Bytes
  validatorBitfield : UInt64
  deriving DecidableEq

structure CompactOutput where
  ephemeralKey : Bytes32
  encCiphertextPrefix : Vector UInt8 52
  noteCommitment : Hash32
  leafIndex : UInt64
  deriving DecidableEq

structure CompactBlock where
  height : UInt64
  hash : Hash32
  compactOutputs : List CompactOutput
  nullifiers : List Hash32
  deriving DecidableEq

structure SyncRequest where
  startHeight : UInt64
  limit : UInt32
  deriving DecidableEq

structure SyncResponse where
  blocks : List Block
  deriving DecidableEq

/-! ## Validators and votes -/

inductive VoteType where
  | prevote
  | precommit
  deriving DecidableEq

structure Vote where
  height : UInt64
  round : UInt32
  blockHash : Hash32
  voteType : VoteType
  validatorId : Bytes32
  signature : Bytes96
  deriving DecidableEq

inductive ValidatorStatus where
  | active
  | waiting
  | jailed (jailedUntilEpoch : UInt64)
  | tombstoned
  deriving DecidableEq

structure ValidatorRegistration where
  blsPubkey : Bytes48
  networkPubkey : Bytes32
  stake : U128
  commissionBps : UInt16
  epoch : UInt64
  signature : Bytes64
  deriving DecidableEq

structure ValidatorState where
  registration : ValidatorRegistration
  status : ValidatorStatus
  ownStake : U128
  delegatedStake : U128
  consecutiveMisses : UInt32
  lastSignedHeight : UInt64
  pendingRewards : U128
  totalSlashed : U128
  deriving DecidableEq

structure DoubleSignEvidence where
  validatorId : ValidatorId
  height : UInt64
  blockHash1 : Hash32
  blockHash2 : Hash32
  sig1 : Bytes
  sig2 : Bytes
  deriving DecidableEq

structure SlashParams where
  doubleSignBps : UInt64 := 500
  downtimeBps : UInt64 := 50
  invalidProofBps : UInt64 := 200
  deriving DecidableEq

end NoirNet
