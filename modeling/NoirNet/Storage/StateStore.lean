import NoirNet.Lib.Machine
import NoirNet.Storage.Database
import NoirNet.Validator

/-!
# The state store

`noirnet_storage::state`, with the block and nullifier stores it owns.  `sled`
operations succeed, so the only errors are the two the code raises itself.  A
rejected `apply_block` returns the store it leaves behind.
-/

namespace NoirNet

open Lib

inductive StorageError where
  | doubleSpend
  | invalidTransition (reason : String)
  deriving DecidableEq

/-! ## Block store -/

namespace Db

def putBlock [Blake3] (db : Db) (block : Block) : Db :=
  { db with
    blocks := db.blocks.insert block.blockHash block
    txs := block.transactions.foldl (fun txs tx => txs.insert tx.txId tx) db.txs }

def getBlock (db : Db) (hash : BlockHash) : Option Block := db.blocks[hash]?

def getTransaction (db : Db) (txId : TxId) : Option Transaction := db.txs[txId]?

def deleteBlock [Blake3] (db : Db) (hash : BlockHash) : Db :=
  match db.getBlock hash with
  | some block =>
      { db with
        txs := block.transactions.foldl (fun txs tx => txs.erase tx.txId) db.txs
        blocks := db.blocks.erase hash }
  | none => db

end Db

/-! ## The store -/

@[ext]
structure StateStore where
  db : Db
  tree : NoteCommitmentTree

namespace StateStore

/-- `StateStore::open`. -/
def openDb (db : Db) : StateStore := { db, tree := NoteCommitmentTree.openDb db }

def stateRoot [Blake3] (store : StateStore) : StateRoot := store.tree.root

def getChainHeight (store : StateStore) : UInt64 := store.db.chainHeight.getD 0

def hasBlocks (store : StateStore) : Bool := store.db.chainHeight.isSome

/-- The height `apply_block` asks for. -/
def expectedHeight (store : StateStore) : UInt64 :=
  if store.hasBlocks then store.getChainHeight + 1 else 0

def containsNullifier (store : StateStore) (nullifier : Hash32) : Bool :=
  store.db.nullifiers[nullifier]?.isSome

def insertNullifier (store : StateStore) (nullifier : Hash32) (height : UInt64) : StateStore :=
  { store with db := { store.db with nullifiers := store.db.nullifiers.insert nullifier height } }

/-- The body of the output loop: `append`, then the commitment once more under
the index read before it. -/
def appendCommitment [Blake3] (store : StateStore) (commitment : Hash32) : StateStore :=
  let leafIdx := store.tree.size
  let (_, tree, db) := store.tree.append store.db commitment
  { db := { db with commitments := db.commitments.insert leafIdx commitment }, tree }

def applySpends (height : UInt64) :
    StateStore → List SpendDescription → StateStore × Except StorageError Unit
  | store, [] => (store, .ok ())
  | store, spend :: spends =>
      if store.containsNullifier spend.nullifier then (store, .error .doubleSpend)
      else applySpends height (store.insertNullifier spend.nullifier height) spends

def applyOutputs [Blake3] (store : StateStore) (outs : List OutputDescription) : StateStore :=
  outs.foldl (fun store out => store.appendCommitment out.noteCommitment) store

def applyTransactions [Blake3] (height : UInt64) :
    StateStore → List Transaction → StateStore × Except StorageError Unit
  | store, [] => (store, .ok ())
  | store, tx :: txs =>
      match store.applySpends height tx.spends with
      | (store, .error e) => (store, .error e)
      | (store, .ok ()) => applyTransactions height (store.applyOutputs tx.outputs) txs

/-- Everything `apply_block` writes after its loops. -/
def finishBlock [Blake3] (store : StateStore) (block : Block)
    (contractStateChanges : Table Bytes Bytes) (newContracts : List (Hash32 × Bytes)) :
    StateStore × StateRoot :=
  let newStateRoot := store.stateRoot
  let expiry := block.header.height + ANCHOR_EXPIRY_BLOCKS
  let db := store.db
  let db := { db with anchors := db.anchors.insert newStateRoot expiry }
  let db := { db with
    contracts :=
      newContracts.foldl (fun contracts (id, bytecode) => contracts.insert id bytecode)
        db.contracts }
  let db := { db with
    contractState :=
      contractStateChanges.foldl (fun state key value => state.insert key value) db.contractState }
  let db := db.putBlock block
  let db := { db with
    chainHeight := some block.header.height
    heightHash := db.heightHash.insert block.header.height block.blockHash }
  ({ store with db }, newStateRoot)

def applyBlock [Blake3] (store : StateStore) (block : Block)
    (contractStateChanges : Table Bytes Bytes) (newContracts : List (Hash32 × Bytes)) :
    StateStore × Except StorageError StateRoot :=
  if block.header.height ≠ store.expectedHeight then
    (store, .error (.invalidTransition
      ("Expected height " ++ toString store.expectedHeight ++
        ", got " ++ toString block.header.height)))
  else
    match store.applyTransactions block.header.height block.transactions with
    | (store, .error e) => (store, .error e)
    | (store, .ok ()) =>
        let (store, root) := store.finishBlock block contractStateChanges newContracts
        (store, .ok root)

def isValidAnchor (store : StateStore) (anchor : StateRoot) (currentHeight : UInt64) : Bool :=
  match store.db.anchors[anchor]? with
  | some expiry => currentHeight ≤ expiry
  | none => false

def getBlockByHeight (store : StateStore) (height : UInt64) : Option Block :=
  match store.db.heightHash[height]? with
  | some hash => store.db.getBlock hash
  | none => none

def getContractCode (store : StateStore) (contractId : Hash32) : Option Bytes :=
  store.db.contracts[contractId]?

def getContractState (store : StateStore) (contractId : Hash32) (key : Bytes) : Option Bytes :=
  store.db.contractState[contractId.toList ++ key]?

/-- `StateStore::get_contract_state_all`: the entries under the contract's
prefix, the prefix cut off. -/
def getContractStateAll (store : StateStore) (contractId : Hash32) : Table Bytes Bytes :=
  store.db.contractState.foldl
    (fun result key value =>
      if contractId.toList.isPrefixOf key then result.insert (key.drop 32) value else result) ∅

def getAllValidators (store : StateStore) : List ValidatorState := store.db.validators

def getValidatorSet (store : StateStore) (epoch : UInt64) : ValidatorSet :=
  ValidatorSet.new epoch
    ((store.getAllValidators.filter fun v => v.registration.epoch ≤ epoch).map fun v =>
      { blsPubkey := v.registration.blsPubkey
        networkPubkey := v.registration.networkPubkey
        totalStake := v.totalStake
        status := v.status
        epochJoined := v.registration.epoch })

/-- One turn of the loop of `prune_history`. -/
def pruneHeight [Blake3] (pruned : Db × UInt64) (h : UInt64) : Db × UInt64 :=
  match pruned.1.heightHash[h]? with
  | some hash =>
      ({ pruned.1 with heightHash := pruned.1.heightHash.erase h }.deleteBlock hash, pruned.2 + 1)
  | none => pruned

def pruneHistory [Blake3] (store : StateStore) (keepLast : UInt64) : StateStore × UInt64 :=
  let height := store.getChainHeight
  if height ≤ keepLast then (store, 0)
  else
    let pruneUpTo := height - keepLast
    let (db, prunedCount) :=
      (List.range pruneUpTo.toNat).foldl (fun pruned h => pruneHeight pruned (.ofNat h))
        (store.db, 0)
    ({ store with db }, prunedCount)

end StateStore

/-! ## Runs of the store -/

inductive StoreOp where
  | applyBlock (block : Block) (contractStateChanges : Table Bytes Bytes)
      (newContracts : List (Hash32 × Bytes))
  | pruneHistory (keepLast : UInt64)
  /-- The process ends and the database is opened again. -/
  | reopen

/-- The store under its operations; a block that is applied is the output. -/
def storeMachine [Blake3] : Machine StateStore StoreOp Block where
  step
    | store, .applyBlock block changes contracts =>
        match store.applyBlock block changes contracts with
        | (store, .ok _) => (store, [block])
        | (store, .error _) => (store, [])
    | store, .pruneHistory keepLast => ((store.pruneHistory keepLast).1, [])
    | store, .reopen => (StateStore.openDb store.db, [])

structure Submission where
  block : Block
  contractStateChanges : Table Bytes Bytes
  newContracts : List (Hash32 × Bytes)

/-- Runs of `apply_block` alone. -/
def ledgerMachine [Blake3] : Machine StateStore Submission Block where
  step store s :=
    storeMachine.step store (.applyBlock s.block s.contractStateChanges s.newContracts)

theorem ledgerMachine_step [Blake3] (store : StateStore) (s : Submission) :
    ledgerMachine.step store s =
      storeMachine.step store (.applyBlock s.block s.contractStateChanges s.newContracts) := rfl

def StateStore.empty : StateStore := StateStore.openDb {}

/-- A store some run from an empty database ends in. -/
def StateStore.Reachable [Blake3] (store : StateStore) : Prop :=
  ∃ ops, storeMachine.final StateStore.empty ops = store

end NoirNet
