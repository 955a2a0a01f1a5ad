import NoirNet.Decode
import NoirNet.Storage.StateStore

/-!
# The store over its bytes

`noirnet_storage` once more, one level down: a `sled` database is a family of
named trees from byte strings to byte strings, and every key and value is
encoded and decoded where the code does so.  The in-memory half of the note
commitment tree is shared with the typed store; its size is written as a `u64`.
-/

namespace NoirNet

open Lib Lib.Wire

/-! ## The database -/

abbrev SledTree := Table Bytes Bytes

inductive Cf where
  | blocks
  | txs
  | nullifiers
  | commitments
  | tree
  | validators
  | contracts
  | contractState
  | anchors
  | metaData
  deriving DecidableEq

/-- `sled::Db`: `open_tree` creates a tree that is not there. -/
structure Sled where
  openTree : Cf → SledTree

/-- What a call can end with besides its result and a rejection: a value that does not
decode, or a slice of the wrong length in `copy_from_slice`. -/
inductive StoreFault where
  | serialization
  | panicked
  deriving DecidableEq

namespace Sled

def empty : Sled := { openTree := fun _ => ∅ }

def setTree (db : Sled) (cf : Cf) (tree : SledTree) : Sled :=
  { openTree := fun name => if name = cf then tree else db.openTree name }

def cfGet (db : Sled) (cf : Cf) (key : Bytes) : Option Bytes := (db.openTree cf)[key]?

def cfPut (db : Sled) (cf : Cf) (key value : Bytes) : Sled :=
  db.setTree cf ((db.openTree cf).insert key value)

def remove (db : Sled) (cf : Cf) (key : Bytes) : Sled :=
  db.setTree cf ((db.openTree cf).erase key)

/-- `cf_get`, and `deserialize` on what is found. -/
def getDecoded {α : Type} (r : Reader α) (db : Sled) (cf : Cf) (key : Bytes) :
    Except StoreFault (Option α) :=
  match db.cfGet cf key with
  | some bytes =>
      match Reader.decodePrefix r bytes with
      | some a => .ok (some a)
      | none => .error .serialization
  | none => .ok none

/-- `u64::from_le_bytes`, of zeros if the length is not 8. -/
def fromLeBytes (bytes : Bytes) : UInt64 :=
  if bytes.length = 8 then .ofNat (leValue bytes) else 0

def toBeBytes (n : Nat) : Bytes := (leBytes 8 n).reverse

def copyHash (bytes : Bytes) : Except StoreFault Hash32 :=
  if h : bytes.length = 32 then .ok ⟨bytes.toArray, by simp [h]⟩ else .error .panicked

def heightKey (height : UInt64) : Bytes := "height_hash_".toUTF8.toList ++ putU64 height

def chainHeightKey : Bytes := "chain_height".toUTF8.toList

def frontierKey : Bytes := "frontier".toUTF8.toList

def sizeKey : Bytes := "size".toUTF8.toList

/-! ## Block store -/

section

variable [Blake3]

def putBlock (db : Sled) (block : Block) : Sled :=
  block.transactions.foldl (fun db tx => db.cfPut .txs tx.txId.toList tx.serialize)
    (db.cfPut .blocks block.blockHash.toList block.serialize)

def getBlock (db : Sled) (hash : BlockHash) : Except StoreFault (Option Block) :=
  db.getDecoded Block.deserialize .blocks hash.toList

def getTransaction (db : Sled) (txId : TxId) : Except StoreFault (Option Transaction) :=
  db.getDecoded Transaction.deserialize .txs txId.toList

def deleteBlock (db : Sled) (hash : BlockHash) : Sled × Except StoreFault Unit :=
  match db.getBlock hash with
  | .ok (some block) =>
      ((block.transactions.foldl (fun db tx => db.remove .txs tx.txId.toList) db).remove
        .blocks hash.toList, .ok ())
  | .ok none => (db, .ok ())
  | .error fault => (db, .error fault)

end

/-! ## The note commitment tree -/

def putFrontier (slots : List (Option Bytes32)) : Bytes := putVec (putOption Vector.toList) slots

def readFrontier : Reader (List (Option Bytes32)) :=
  Reader.fixedVec (Reader.option (Reader.array 32))

/-- `NoteCommitmentTree::open`.  A frontier of another length than the depth would make
the loops over it panic. -/
def openNoteTree (db : Sled) : Except StoreFault NoteCommitmentTree :=
  let size := ((db.cfGet .tree sizeKey).map fromLeBytes).getD 0
  match db.getDecoded readFrontier .tree frontierKey with
  | .ok (some slots) =>
      if h : slots.length = NOTE_COMMITMENT_TREE_DEPTH then
        .ok { frontier := ⟨slots, h⟩, size := size.toNat }
      else .error .panicked
  | .ok none => .ok { frontier := TreeFrontier.empty, size := size.toNat }
  | .error fault => .error fault

def append [Blake3] (db : Sled) (tree : NoteCommitmentTree) (commitment : Bytes32) :
    NoteCommitmentTree × Sled :=
  let db := db.cfPut .commitments (toBeBytes tree.size) commitment.toList
  let tree' := tree.appended commitment
  let db := db.cfPut .tree frontierKey (putFrontier tree'.frontier.val)
  (tree', db.cfPut .tree sizeKey (leBytes 8 tree'.size))

def getCommitment (db : Sled) (leafIndex : Nat) : Option Hash32 :=
  (db.cfGet .commitments (toBeBytes leafIndex)).map fun bytes =>
    match copyHash bytes with
    | .ok hash => hash
    | .error _ => Hash32.ZERO

end Sled

/-! ## The store -/

structure SledStore where
  db : Sled
  tree : NoteCommitmentTree

namespace SledStore

/-- `StateStore::open`. -/
def openDb (db : Sled) : Except StoreFault SledStore :=
  match db.openNoteTree with
  | .ok tree => .ok { db, tree }
  | .error fault => .error fault

def empty : SledStore := { db := Sled.empty, tree := { frontier := TreeFrontier.empty, size := 0 } }

def getChainHeight (store : SledStore) : UInt64 :=
  match store.db.cfGet .metaData Sled.chainHeightKey with
  | some bytes => Sled.fromLeBytes bytes
  | none => 0

def hasBlocks (store : SledStore) : Bool := (store.db.cfGet .metaData Sled.chainHeightKey).isSome

def expectedHeight (store : SledStore) : UInt64 :=
  if store.hasBlocks then store.getChainHeight + 1 else 0

def containsNullifier (store : SledStore) (nullifier : Hash32) : Bool :=
  (store.db.cfGet .nullifiers nullifier.toList).isSome

def applySpends (height : UInt64) :
    SledStore → List SpendDescription → SledStore × Except StorageError Unit
  | store, [] => (store, .ok ())
  | store, spend :: spends =>
      if store.containsNullifier spend.nullifier then (store, .error .doubleSpend)
      else applySpends height
        { store with
          db := store.db.cfPut .nullifiers spend.nullifier.toList (putU64 height) } spends

section

variable [Blake3]

def stateRoot (store : SledStore) : StateRoot := store.tree.root

def appendCommitment (store : SledStore) (commitment : Hash32) : SledStore :=
  let leafIdx := store.tree.size
  let (tree, db) := store.db.append store.tree commitment
  { db := db.cfPut .commitments (Sled.toBeBytes leafIdx) commitment.toList, tree }

def applyOutputs (store : SledStore) (outs : List OutputDescription) : SledStore :=
  outs.foldl (fun store out => store.appendCommitment out.noteCommitment) store

def applyTransactions (height : UInt64) :
    SledStore → List Transaction → SledStore × Except StorageError Unit
  | store, [] => (store, .ok ())
  | store, tx :: txs =>
      match store.applySpends height tx.spends with
      | (store, .error e) => (store, .error e)
      | (store, .ok ()) => applyTransactions height (store.applyOutputs tx.outputs) txs

/-- Everything `apply_block` writes after its loops. -/
def finishBlock (store : SledStore) (block : Block) (contractStateChanges : Table Bytes Bytes)
    (newContracts : List (Hash32 × Bytes)) : SledStore × StateRoot :=
  let newStateRoot := store.stateRoot
  let expiry := block.header.height + ANCHOR_EXPIRY_BLOCKS
  let db := store.db.cfPut .anchors newStateRoot.toList (putU64 expiry)
  let db := newContracts.foldl
    (fun db (id, bytecode) => db.cfPut .contracts id.toList bytecode) db
  let db := contractStateChanges.foldl
    (fun db key value => db.cfPut .contractState key value) db
  let db := db.putBlock block
  let db := db.cfPut .metaData Sled.chainHeightKey (putU64 block.header.height)
  let db := db.cfPut .metaData (Sled.heightKey block.header.height) block.blockHash.toList
  ({ store with db }, newStateRoot)

def applyBlock (store : SledStore) (block : Block) (contractStateChanges : Table Bytes Bytes)
    (newContracts : List (Hash32 × Bytes)) : SledStore × Except StorageError StateRoot :=
  if block.header.height ≠ store.expectedHeight then
    (store, .error (.invalidTransition
      ("Expected height " ++ toString store.expectedHeight ++
        ", got " ++ toString block.header.height)))
  else
    match store.applyTransactions block.header.height block.transactions with
    | (store, .error e) => (store, .error e)
    | (store, .ok ()) =>
        let (store, root) := store.finishBlock block contractStateChanges newContracts
        (store, .ok root)

def getBlockByHeight (store : SledStore) (height : UInt64) : Except StoreFault (Option Block) :=
  match store.db.cfGet .metaData (Sled.heightKey height) with
  | some hashBytes =>
      match Sled.copyHash hashBytes with
      | .ok hash => store.db.getBlock hash
      | .error fault => .error fault
  | none => .ok none

/-- The loop of `prune_history`: the database, and how many blocks were pruned. -/
def pruneHeights : List Nat → Sled → UInt64 → Sled × Except StoreFault UInt64
  | [], db, prunedCount => (db, .ok prunedCount)
  | h :: heights, db, prunedCount =>
      match db.cfGet .metaData (Sled.heightKey (.ofNat h)) with
      | some hashBytes =>
          let db := db.remove .metaData (Sled.heightKey (.ofNat h))
          match Sled.copyHash hashBytes with
          | .ok hash =>
              match db.deleteBlock hash with
              | (db, .ok ()) => pruneHeights heights db (prunedCount + 1)
              | (db, .error fault) => (db, .error fault)
          | .error fault => (db, .error fault)
      | none => pruneHeights heights db prunedCount

def pruneHistory (store : SledStore) (keepLast : UInt64) : SledStore × Except StoreFault UInt64 :=
  let height := store.getChainHeight
  if height ≤ keepLast then (store, .ok 0)
  else
    let (db, result) := pruneHeights (List.range (height - keepLast).toNat) store.db 0
    ({ store with db }, result)

end

def isValidAnchor (store : SledStore) (anchor : StateRoot) (currentHeight : UInt64) : Bool :=
  match store.db.cfGet .anchors anchor.toList with
  | some bytes => currentHeight ≤ Sled.fromLeBytes bytes
  | none => false

def getContractCode (store : SledStore) (contractId : Hash32) : Option Bytes :=
  store.db.cfGet .contracts contractId.toList

def getContractState (store : SledStore) (contractId : Hash32) (key : Bytes) : Option Bytes :=
  store.db.cfGet .contractState (contractId.toList ++ key)

def getContractStateAll (store : SledStore) (contractId : Hash32) : Table Bytes Bytes :=
  ((store.db.openTree .contractState).toList.filter
    fun (key, _) => contractId.toList.isPrefixOf key).foldl
      (fun result (key, value) =>
        if key.length ≥ 32 then result.insert (key.drop 32) value else result) ∅

def getAllValidators (store : SledStore) : Except StoreFault (List ValidatorState) :=
  (store.db.openTree .validators).values.mapM fun value =>
    match Reader.decodePrefix ValidatorState.deserialize value with
    | some vs => .ok vs
    | none => .error .serialization

end SledStore

/-! ## Runs -/

/-- The store under its operations.  A block that is applied is an output, and so is a
fault that is not a rejection. -/
def sledMachine [Blake3] : Machine SledStore StoreOp (Except StoreFault Block) where
  step
    | store, .applyBlock block changes contracts =>
        match store.applyBlock block changes contracts with
        | (store, .ok _) => (store, [.ok block])
        | (store, .error _) => (store, [])
    | store, .pruneHistory keepLast =>
        match store.pruneHistory keepLast with
        | (store, .ok _) => (store, [])
        | (store, .error fault) => (store, [.error fault])
    | store, .reopen =>
        match SledStore.openDb store.db with
        | .ok store => (store, [])
        | .error fault => (store, [.error fault])

end NoirNet
