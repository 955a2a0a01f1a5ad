import NoirNet.Ledger
import NoirNet.Lib.PerfectTree
import NoirNet.Lib.Table

/-!
# The database and the note commitment tree

`noirnet_storage::db` and `noirnet_storage::merkle`.  A `sled` tree is a table
of the values the code stores in it: every value is read back through the
decoder that matches its encoder.  The `meta` tree holds one `chain_height`
entry and one `height_hash_` entry a height, kept here as two fields.  A leaf
index counts the appends made to one database and is a natural number.
-/

namespace NoirNet

open Lib

/-! ## The database -/

/-- One slot a tree level, `NOTE_COMMITMENT_TREE_DEPTH` of them. -/
abbrev TreeFrontier :=
  { slots : List (Option Bytes32) // slots.length = NOTE_COMMITMENT_TREE_DEPTH }

def TreeFrontier.empty : TreeFrontier :=
  ⟨List.replicate NOTE_COMMITMENT_TREE_DEPTH none, List.length_replicate⟩

@[ext]
structure Db where
  blocks : Table BlockHash Block := ∅
  txs : Table TxId Transaction := ∅
  nullifiers : Table Hash32 UInt64 := ∅
  commitments : Table Nat Hash32 := ∅
  treeFrontier : Option TreeFrontier := none
  treeSize : Option Nat := none
  validators : List ValidatorState := []
  contracts : Table Hash32 Bytes := ∅
  contractState : Table Bytes Bytes := ∅
  anchors : Table StateRoot UInt64 := ∅
  chainHeight : Option UInt64 := none
  heightHash : Table UInt64 BlockHash := ∅

/-! ## The note commitment tree -/

def hashPair [Blake3] (left right : Bytes32) : Bytes32 :=
  Blake3.hash ("NoirNet_tree_node_v1".toUTF8.toList ++ left.toList ++ right.toList)

def emptyLeaf : Bytes32 := Vector.replicate 32 0

/-- The in-memory half of `NoteCommitmentTree`; its database handle is passed
to each method. -/
@[ext]
structure NoteCommitmentTree where
  frontier : TreeFrontier
  size : Nat

namespace NoteCommitmentTree

/-- `NoteCommitmentTree::open`. -/
def openDb (db : Db) : NoteCommitmentTree :=
  { frontier := db.treeFrontier.getD TreeFrontier.empty, size := db.treeSize.getD 0 }

def appended [Blake3] (tree : NoteCommitmentTree) (commitment : Bytes32) : NoteCommitmentTree :=
  { frontier := ⟨PerfectTree.push hashPair commitment tree.frontier.val,
      by rw [PerfectTree.length_push, tree.frontier.property]⟩
    size := tree.size + 1 }

/-- `NoteCommitmentTree::append`: the index of the new leaf, the tree and the
database behind it. -/
def append [Blake3] (tree : NoteCommitmentTree) (db : Db) (commitment : Bytes32) :
    Nat × NoteCommitmentTree × Db :=
  let leafIndex := tree.size
  let tree' := tree.appended commitment
  (leafIndex, tree',
    { db with
      commitments := db.commitments.insert leafIndex commitment
      treeFrontier := some tree'.frontier
      treeSize := some tree'.size })

def root [Blake3] (tree : NoteCommitmentTree) : Hash32 :=
  PerfectTree.climb hashPair emptyLeaf tree.size 0 emptyLeaf tree.frontier.val

def getCommitment (db : Db) (leafIndex : Nat) : Option Hash32 := db.commitments[leafIndex]?

theorem openDb_append [Blake3] (tree : NoteCommitmentTree) (db : Db) (commitment : Bytes32) :
    openDb (tree.append db commitment).2.2 = tree.appended commitment := rfl

end NoteCommitmentTree

end NoirNet
