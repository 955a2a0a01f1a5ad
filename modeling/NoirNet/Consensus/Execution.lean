import NoirNet.Mempool
import NoirNet.Zk.SpendCircuit

/-!
# Executing a block

`ConsensusEngine::execute_and_apply_block`: proofs and formats first, then the
contracts, then the state.  The Wasm runtime is `wasmtime` behind
`WasmRuntime::execute`; it enters as a function of what it is called with.
-/

namespace NoirNet

open Lib

/-! ## Contracts -/

structure ExecutionContext where
  contractId : Hash32
  callerCommitment : Bytes32
  gasRemaining : UInt64
  existingState : Table Bytes Bytes

structure ExecutionResult where
  stateChanges : Table Bytes Bytes

/-- `WasmRuntime::execute` with code, method and arguments; `none` is any
`VmError`. -/
abbrev WasmRuntime := Bytes → String → Bytes → ExecutionContext → Option ExecutionResult

@[ext]
structure ContractEffects where
  contractStateChanges : Table Bytes Bytes := ∅
  newContracts : List (Hash32 × Bytes) := []

namespace ContractEffects

def recordChanges (effects : ContractEffects) (contractId : Hash32) (r : ExecutionResult) :
    ContractEffects :=
  { effects with
    contractStateChanges := r.stateChanges.foldl
      (fun changes key value => changes.insert (contractId.toList ++ key) value)
      effects.contractStateChanges }

def deploy [Blake3] (vm : WasmRuntime) (store : StateStore) (tx : Transaction) (bytecode : Bytes)
    (effects : ContractEffects) : ContractEffects :=
  let contractId := blake3Of bytecode
  let ctx :=
    { contractId
      callerCommitment := Vector.replicate 32 0
      gasRemaining := tx.gasLimit
      existingState := store.getContractStateAll contractId }
  match vm bytecode "init" [] ctx with
  | some r =>
      { effects with
        newContracts := effects.newContracts ++ [(contractId, bytecode)] }.recordChanges
        contractId r
  | none => effects

def call (vm : WasmRuntime) (store : StateStore) (call : ContractCall)
    (effects : ContractEffects) : ContractEffects :=
  match store.getContractCode call.contractId with
  | some code =>
      let ctx :=
        { contractId := call.contractId
          callerCommitment := call.callerCommitment
          gasRemaining := call.gasLimit
          existingState := store.getContractStateAll call.contractId }
      match vm code call.method call.args ctx with
      | some r => effects.recordChanges call.contractId r
      | none => effects
  | none => effects

/-- The body of the loop of phase 2.  A deployment over the size limit ends the
turn of its transaction, its contract call included. -/
def executeTransaction [Blake3] (vm : WasmRuntime) (store : StateStore)
    (effects : ContractEffects) (tx : Transaction) : ContractEffects :=
  let calls (effects : ContractEffects) : ContractEffects :=
    match tx.contractCall with
    | some c => effects.call vm store c
    | none => effects
  match tx.deployContract with
  | some bytecode =>
      if bytecode.length > MAX_CONTRACT_SIZE then effects
      else calls (effects.deploy vm store tx bytecode)
  | none => calls effects

end ContractEffects

/-! ## Phase 1 -/

inductive Rejection where
  | missingBlsSignature
  | timestampTooFar
  | missingProof (tx : Transaction)
  | invalidProof (tx : Transaction)
  | formatError (tx : Transaction) (e : TxFormatError)
  | exceedsGasLimit (tx : Transaction)
  deriving DecidableEq

/-- The body of the loop of phase 1. -/
def verifyTransaction [Nova] (tx : Transaction) : Except Rejection Unit := do
  if ¬ tx.spends.isEmpty then
    if tx.aggregateSpendProof.isEmpty then
      throw (.missingProof tx)
    match verifySpendProof tx.aggregateSpendProof tx.spends.length with
    | .ok true => pure ()
    | _ => throw (.invalidProof tx)
  match tx.validateFormat with
  | .error e => throw (.formatError tx e)
  | .ok () => pure ()
  if tx.gasLimit > MAX_TX_GAS then
    throw (.exceedsGasLimit tx)

/-- Phase 1: the transactions in order, up to the first that fails. -/
def verifyTransactions [Nova] : List Transaction → Except Rejection Unit
  | [] => .ok ()
  | tx :: txs => do
      verifyTransaction tx
      verifyTransactions txs

/-! ## The whole function -/

inductive BlockOutcome where
  | rejected (reason : Rejection)
  /-- `apply_block` succeeded, with another root than the header's. -/
  | rootMismatch (computed : StateRoot)
  | applied (root : StateRoot)
  | failed (e : StorageError)
  deriving DecidableEq

def BlockOutcome.slashing : BlockOutcome → Option String
  | .rejected (.invalidProof _) => some "invalid_zk_proof"
  | .rejected _ => none
  | .rootMismatch _ => some "state_root_mismatch"
  | .applied _ => none
  | .failed _ => some "apply_block_failed"

/-- `ConsensusEngine::execute_and_apply_block` at the time `now`. -/
def executeAndApplyBlock [Blake3] [Nova] (vm : WasmRuntime) (isValidator : Bool) (now : UInt64)
    (store : StateStore) (mempool : PrivateMempool) (block : Block) :
    StateStore × PrivateMempool × BlockOutcome :=
  if isValidator ∧ block.blsAggregateSig.isEmpty then
    (store, mempool, .rejected .missingBlsSignature)
  else if block.header.timestamp > now + 60 then
    (store, mempool, .rejected .timestampTooFar)
  else
    match verifyTransactions block.transactions with
    | .error reason => (store, mempool, .rejected reason)
    | .ok () =>
        let effects := block.transactions.foldl
          (ContractEffects.executeTransaction vm store) {}
        match store.applyBlock block effects.contractStateChanges effects.newContracts with
        | (store, .ok root) =>
            if root ≠ block.header.stateRoot then (store, mempool, .rootMismatch root)
            else (store, mempool.removeMined block.transactions, .applied root)
        | (store, .error e) => (store, mempool, .failed e)

end NoirNet
