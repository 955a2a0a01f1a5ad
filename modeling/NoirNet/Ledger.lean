import NoirNet.Codec

/-!
# Transactions and blocks

Identifiers, roots, rewards and the format check of `noirnet_types::transaction` and
`noirnet_types::block`.
-/

namespace NoirNet

open Lib.Wire

/-! ## Transactions -/

def Transaction.txId [Blake3] (tx : Transaction) : TxId := blake3Of tx.serialize

def Transaction.serializedSize (tx : Transaction) : Nat := tx.serialize.length

def SpendDescription.signingBytes (spend : SpendDescription) : Bytes :=
  spend.nullifier.toList ++ spend.cv.toList

def OutputDescription.signingBytes (out : OutputDescription) : Bytes :=
  out.noteCommitment.toList ++ out.cv.toList

def ContractCall.signingBytes (call : ContractCall) : Bytes :=
  call.contractId.toList ++ call.method.toUTF8.toList ++ call.args

def Transaction.signingBytes (tx : Transaction) : Bytes :=
  [tx.version] ++ putU32 tx.chainId ++ putU64 tx.fee ++ putU64 tx.timestamp ++
    tx.spends.flatMap SpendDescription.signingBytes ++
    tx.outputs.flatMap OutputDescription.signingBytes ++
    tx.contractCall.elim [] ContractCall.signingBytes ++
    tx.deployContract.getD []

inductive TxFormatError where
  | unsupportedVersion (version : UInt8)
  | noInputs
  | noOutputs
  | feeTooLow
  | gasLimitTooHigh
  | tooLarge
  | contractTooLarge
  | invalidNullifier
  | duplicateNullifier
  | invalidTimestamp
  | tooManySpends
  | tooManyOutputs
  | invalidFeeTier
  deriving DecidableEq

def TxFormatError.message : TxFormatError → String
  | .unsupportedVersion version => "Unsupported transaction version: " ++ toString version
  | .noInputs => "Transaction has no inputs"
  | .noOutputs => "Transaction has no outputs"
  | .feeTooLow => "Fee too low"
  | .gasLimitTooHigh => "Gas limit too high"
  | .tooLarge => "Transaction too large"
  | .contractTooLarge => "Contract bytecode exceeds MAX_CONTRACT_SIZE"
  | .invalidNullifier => "Invalid nullifier"
  | .duplicateNullifier => "Duplicate nullifier in transaction"
  | .invalidTimestamp => "Invalid timestamp (must be rounded to 15 minutes)"
  | .tooManySpends => "Too many spends (max " ++ toString MAX_SPENDS_PER_TX ++ ")"
  | .tooManyOutputs => "Too many outputs (max " ++ toString MAX_OUTPUTS_PER_TX ++ ")"
  | .invalidFeeTier => "Fee must be one of the allowed tiers"

def Transaction.validateFormat (tx : Transaction) : Except TxFormatError Unit := do
  if tx.version ≠ 1 then
    throw (.unsupportedVersion tx.version)
  if tx.spends.isEmpty ∧ tx.contractCall.isNone ∧ tx.deployContract.isNone then
    throw .noInputs
  if tx.outputs.isEmpty ∧ tx.contractCall.isNone ∧ tx.deployContract.isNone then
    throw .noOutputs
  if tx.spends.length > MAX_SPENDS_PER_TX then
    throw .tooManySpends
  if tx.outputs.length > MAX_OUTPUTS_PER_TX then
    throw .tooManyOutputs
  if tx.fee ∉ FEE_TIERS then
    throw .invalidFeeTier
  if tx.gasLimit > MAX_TX_GAS then
    throw .gasLimitTooHigh
  if tx.timestamp % 900 ≠ 0 then
    throw .invalidTimestamp
  match tx.deployContract with
  | some code => if code.length > MAX_CONTRACT_SIZE then throw .contractTooLarge
  | none => pure ()
  if tx.serializedSize > MAX_P2P_MESSAGE_SIZE then
    throw .tooLarge

theorem ite_throw_eq_ok {ε α β : Type} {c : Prop} [Decidable c] {e : ε} {k : β → Except ε α}
    {x : Except ε α} {a : α} :
    (if c then ((throw e : Except ε β) >>= k) else x) = .ok a ↔ ¬ c ∧ x = .ok a := by
  by_cases h : c
  · simp [h, throw, throwThe, MonadExceptOf.throw, bind, Except.bind]
  · simp [h]

theorem Transaction.validateFormat_ok_iff {tx : Transaction} :
    tx.validateFormat = .ok () ↔
      tx.version = 1 ∧
      ¬ (tx.spends.isEmpty ∧ tx.contractCall.isNone ∧ tx.deployContract.isNone) ∧
      ¬ (tx.outputs.isEmpty ∧ tx.contractCall.isNone ∧ tx.deployContract.isNone) ∧
      tx.spends.length ≤ MAX_SPENDS_PER_TX ∧ tx.outputs.length ≤ MAX_OUTPUTS_PER_TX ∧
      tx.fee ∈ FEE_TIERS ∧ tx.gasLimit ≤ MAX_TX_GAS ∧ tx.timestamp % 900 = 0 ∧
      (∀ code, tx.deployContract = some code → code.length ≤ MAX_CONTRACT_SIZE) ∧
      tx.serializedSize ≤ MAX_P2P_MESSAGE_SIZE := by
  have hlast : ((if tx.serializedSize > MAX_P2P_MESSAGE_SIZE then throw .tooLarge else pure ()) =
      (.ok () : Except TxFormatError Unit)) ↔ tx.serializedSize ≤ MAX_P2P_MESSAGE_SIZE := by
    by_cases hsize : tx.serializedSize > MAX_P2P_MESSAGE_SIZE
    · simp [hsize, Nat.not_le.mpr hsize, throw, throwThe, MonadExceptOf.throw]
    · simp [hsize, Nat.not_lt.mp hsize, pure, Except.pure]
  unfold validateFormat
  simp only [↓ite_throw_eq_ok, ne_eq, not_not, gt_iff_lt, not_lt, UInt64.not_lt]
  cases hdeploy : tx.deployContract with
  | none => simp [hlast]
  | some code => simp [↓ite_throw_eq_ok, hlast]

/-! ## Blocks -/

def BlockHeader.hash [Blake3] (header : BlockHeader) : Hash32 := blake3Of header.serialize

def Block.blockHash [Blake3] (block : Block) : BlockHash := block.header.hash

def Block.computeTxRoot [Blake3] (txs : List Transaction) : Hash32 :=
  if txs.isEmpty then Hash32.ZERO
  else Blake3.hash (txs.flatMap fun tx => tx.txId.toList)

/-! ## Rewards -/

def computeBlockReward (height : UInt64) : U128 :=
  if height = 0 then 0
  else
    let halvings := height / HALVING_INTERVAL
    if halvings ≥ 64 then TAIL_EMISSION
    else
      let reward := INITIAL_BLOCK_REWARD >>> halvings.toNat
      -- `reward.max(TAIL_EMISSION)`
      if reward < TAIL_EMISSION then TAIL_EMISSION else reward

end NoirNet
