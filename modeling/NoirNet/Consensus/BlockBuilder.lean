import NoirNet.Storage.StateStore

/-!
# The block builder

`noirnet_consensus::block_builder`.
-/

namespace NoirNet.BlockBuilder

/-- The gas loop: transactions over `MAX_TX_GAS` are skipped, and the first one
that does not fit into the block ends the loop. -/
def fillBlock : UInt64 → List Transaction → UInt64 × List Transaction
  | gasUsed, [] => (gasUsed, [])
  | gasUsed, tx :: txs =>
      if tx.gasLimit > MAX_TX_GAS then fillBlock gasUsed txs
      else if gasUsed + tx.gasLimit > MAX_BLOCK_GAS then (gasUsed, [])
      else
        let (gasUsed, validTxs) := fillBlock (gasUsed + tx.gasLimit) txs
        (gasUsed, tx :: validTxs)

variable [Blake3]

def nullifierRoot (txs : List Transaction) : Hash32 :=
  Blake3.hash ("NoirNet_NullifierRoot_v1".toUTF8.toList ++
    txs.flatMap fun tx => tx.spends.flatMap (·.nullifier.toList))

def parentHash (state : StateStore) : Hash32 :=
  if state.hasBlocks then
    ((state.getBlockByHeight state.getChainHeight).map (·.blockHash)).getD Hash32.ZERO
  else Hash32.ZERO

def buildBlock (state : StateStore) (txs : List Transaction) (proposer vrfOutput : Bytes32)
    (timestamp epoch : UInt64) : Block :=
  let currentHeight := if state.hasBlocks then state.getChainHeight + 1 else 0
  let (gasUsed, validTxs) := fillBlock 0 txs
  { header :=
      { height := currentHeight
        parentHash := parentHash state
        stateRoot := state.stateRoot
        txRoot := Block.computeTxRoot txs
        nullifierRoot := nullifierRoot txs
        timestamp := timestamp
        epoch := epoch
        vrfOutput := vrfOutput
        proposer := proposer
        chainId := DEVNET_CHAIN_ID
        gasUsed := gasUsed
        gasLimit := MAX_BLOCK_GAS }
    transactions := validTxs
    aggregateProof := []
    blsAggregateSig := []
    validatorBitfield := 0 }

omit [Blake3] in
theorem fillBlock_sublist (gasUsed : UInt64) (txs : List Transaction) :
    (fillBlock gasUsed txs).2.Sublist txs := by
  induction txs generalizing gasUsed with
  | nil => exact List.Sublist.refl _
  | cons tx txs ih =>
      rw [fillBlock]
      by_cases hskip : tx.gasLimit > MAX_TX_GAS
      · rw [if_pos hskip]
        exact (ih gasUsed).cons tx
      · rw [if_neg hskip]
        by_cases hfull : gasUsed + tx.gasLimit > MAX_BLOCK_GAS
        · rw [if_pos hfull]
          exact List.nil_sublist _
        · rw [if_neg hfull]
          exact (ih (gasUsed + tx.gasLimit)).cons_cons tx

end NoirNet.BlockBuilder
