import NoirNet.Lib.Wire
import NoirNet.Types

/-!
# Serialisation of the chain's messages

`serialize` is the free function `bincode::serialize` on each type, field after
field in declaration order.  `read` is the derived deserialiser under
`bincode::DefaultOptions`, the options the gossip handler decodes with.
-/

namespace NoirNet

open Lib.Wire

def SpendDescription.serialize (spend : SpendDescription) : Bytes :=
  spend.anchor.toList ++ (spend.nullifier.toList ++ (spend.rk.toList ++ (spend.cv.toList ++
    spend.spendAuthSig.toList)))

def SpendDescription.read : Reader SpendDescription := do
  let anchor ← Reader.array 32
  let nullifier ← Reader.array 32
  let rk ← Reader.array 32
  let cv ← Reader.array 32
  let spendAuthSig ← Reader.array 64
  return { anchor, nullifier, rk, cv, spendAuthSig }

def OutputDescription.serialize (out : OutputDescription) : Bytes :=
  out.noteCommitment.toList ++ (out.ephemeralKey.toList ++ (putBytes out.encCiphertext ++
    (putBytes out.outCiphertext ++ out.cv.toList)))

def OutputDescription.read : Reader OutputDescription := do
  let noteCommitment ← Reader.array 32
  let ephemeralKey ← Reader.array 32
  let encCiphertext ← Reader.vec Reader.byte
  let outCiphertext ← Reader.vec Reader.byte
  let cv ← Reader.array 32
  return { noteCommitment, ephemeralKey, encCiphertext, outCiphertext, cv }

def EncryptedMemo.serialize (memo : EncryptedMemo) : Bytes := putBytes memo.bytes

def EncryptedMemo.read : Reader EncryptedMemo := do
  let bytes ← Reader.vec Reader.byte
  return { bytes }

def ContractCall.serialize (call : ContractCall) : Bytes :=
  call.contractId.toList ++ (putString call.method ++ (putBytes call.args ++
    (putU64 call.gasLimit ++ call.callerCommitment.toList)))

def ContractCall.read : Reader ContractCall := do
  let contractId ← Reader.array 32
  let method ← Reader.string
  let args ← Reader.vec Reader.byte
  let gasLimit ← Reader.u64
  let callerCommitment ← Reader.array 32
  return { contractId, method, args, gasLimit, callerCommitment }

def Transaction.serialize (tx : Transaction) : Bytes :=
  [tx.version] ++ (putU32 tx.chainId ++ (putVec SpendDescription.serialize tx.spends ++
    (putVec OutputDescription.serialize tx.outputs ++ (putU64 tx.fee ++ (putU64 tx.gasLimit ++
    (putOption EncryptedMemo.serialize tx.memo ++
    (putOption ContractCall.serialize tx.contractCall ++
    (putOption putBytes tx.deployContract ++ (tx.bindingSig.toList ++
    (putU64 tx.timestamp ++ putBytes tx.aggregateSpendProof))))))))))

def Transaction.read : Reader Transaction := do
  let version ← Reader.byte
  let chainId ← Reader.u32
  let spends ← Reader.vec SpendDescription.read
  let outputs ← Reader.vec OutputDescription.read
  let fee ← Reader.u64
  let gasLimit ← Reader.u64
  let memo ← Reader.option EncryptedMemo.read
  let contractCall ← Reader.option ContractCall.read
  let deployContract ← Reader.option (Reader.vec Reader.byte)
  let bindingSig ← Reader.array 64
  let timestamp ← Reader.u64
  let aggregateSpendProof ← Reader.vec Reader.byte
  return { version, chainId, spends, outputs, fee, gasLimit, memo, contractCall, deployContract,
           bindingSig, timestamp, aggregateSpendProof }

def BlockHeader.serialize (header : BlockHeader) : Bytes :=
  putU64 header.height ++ (header.parentHash.toList ++ (header.stateRoot.toList ++
    (header.txRoot.toList ++ (header.nullifierRoot.toList ++ (putU64 header.timestamp ++
    (putU64 header.epoch ++ (header.vrfOutput.toList ++ (header.proposer.toList ++
    (putU32 header.chainId ++ (putU64 header.gasUsed ++ putU64 header.gasLimit))))))))))

def BlockHeader.read : Reader BlockHeader := do
  let height ← Reader.u64
  let parentHash ← Reader.array 32
  let stateRoot ← Reader.array 32
  let txRoot ← Reader.array 32
  let nullifierRoot ← Reader.array 32
  let timestamp ← Reader.u64
  let epoch ← Reader.u64
  let vrfOutput ← Reader.array 32
  let proposer ← Reader.array 32
  let chainId ← Reader.u32
  let gasUsed ← Reader.u64
  let gasLimit ← Reader.u64
  return { height, parentHash, stateRoot, txRoot, nullifierRoot, timestamp, epoch, vrfOutput,
           proposer, chainId, gasUsed, gasLimit }

def Block.serialize (block : Block) : Bytes :=
  block.header.serialize ++ (putVec Transaction.serialize block.transactions ++
    (putBytes block.aggregateProof ++ (putBytes block.blsAggregateSig ++
    putU64 block.validatorBitfield)))

def Block.read : Reader Block := do
  let header ← BlockHeader.read
  let transactions ← Reader.vec Transaction.read
  let aggregateProof ← Reader.vec Reader.byte
  let blsAggregateSig ← Reader.vec Reader.byte
  let validatorBitfield ← Reader.u64
  return { header, transactions, aggregateProof, blsAggregateSig, validatorBitfield }

/-- An enum is written as the index of its variant, a `u32`. -/
def VoteType.serialize : VoteType → Bytes
  | .prevote => putU32 0
  | .precommit => putU32 1

def VoteType.read : Reader VoteType := do
  let variant ← Reader.u32
  if variant = 0 then return .prevote
  else if variant = 1 then return .precommit
  else failure

def Vote.serialize (vote : Vote) : Bytes :=
  putU64 vote.height ++ (putU32 vote.round ++ (vote.blockHash.toList ++
    (vote.voteType.serialize ++ (vote.validatorId.toList ++ vote.signature.toList))))

def Vote.read : Reader Vote := do
  let height ← Reader.u64
  let round ← Reader.u32
  let blockHash ← Reader.array 32
  let voteType ← VoteType.read
  let validatorId ← Reader.array 32
  let signature ← Reader.array 96
  return { height, round, blockHash, voteType, validatorId, signature }

end NoirNet
