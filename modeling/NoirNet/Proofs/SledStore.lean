import NoirNet.Concrete
import NoirNet.Lib.EncodedTable
import NoirNet.Storage.Frame
import NoirNet.Storage.Sled

/-!
# The bytes refine the typed store

Every tree of the database holds one table of the typed store in a layout of
its own; the heights and the chain height share the `meta` tree under keys that
cannot meet.

* `Encodes`, `Simulates`: the relation between the two levels;
* `Simulates.applyBlock`, `Simulates.pruneHistory`, `Simulates.reopen`: each operation;
* `sameAnswers_of_simulates`: each read;
* `sled_refines_store`: over a run no read faults and the answers are the same.
-/

namespace NoirNet

open Lib Lib.Wire

/-! ## Layouts -/

def hashLayout {ν : Type} (fits : ν → Prop) (put : ν → Bytes) : Layout Hash32 ν where
  dom := Set.univ
  key := Vector.toList
  key_injOn _ _ _ _ h := Vector.toList_inj.mp h
  fits := fits
  put := put

def leafLayout : Layout Nat Hash32 where
  dom := {n | n < lengthBound}
  key := Sled.toBeBytes
  key_injOn _ hm _ hn h := leBytes_inj hm hn (List.reverse_injective h)
  fits _ := True
  put := Vector.toList

def heightLayout : Layout UInt64 BlockHash where
  dom := Set.univ
  key := Sled.heightKey
  key_injOn _ _ _ _ h := putU64_injective (List.append_cancel_left h)
  fits _ := True
  put := Vector.toList

theorem chainHeightKey_ne_heightKey (height : UInt64) :
    Sled.chainHeightKey ≠ Sled.heightKey height := by
  intro h
  have hlength := congrArg List.length h
  rw [Sled.heightKey, List.length_append, length_putU64] at hlength
  exact absurd hlength (by decide +kernel)

theorem Sled.frontierKey_ne_sizeKey : Sled.frontierKey ≠ Sled.sizeKey := by
  decide +kernel

theorem Sled.fromLeBytes_putU64 (v : UInt64) : Sled.fromLeBytes (putU64 v) = v := by
  rw [Sled.fromLeBytes, if_pos (length_putU64 v), putU64, leValue_leBytes v.toNat_lt,
    UInt64.ofNat_toNat]

theorem Sled.copyHash_toList (hash : Hash32) : Sled.copyHash hash.toList = .ok hash := by
  rw [Sled.copyHash, dif_pos Vector.length_toList]
  rfl

theorem exact_frontier :
    Exact (FitsVec (FitsOption fun _ => True)) Sled.putFrontier Sled.readFrontier :=
  exact_vec (exact_option exact_array)

theorem TreeFrontier.fits (frontier : TreeFrontier) :
    FitsVec (FitsOption fun _ : Bytes32 => True) frontier.val := by
  refine ⟨?_, fun _ _ _ _ => trivial⟩
  rw [frontier.property]
  decide

theorem Sled.getDecoded_of_get {ν : Type} {fits : ν → Prop} {put : ν → Bytes} {r : Reader ν}
    (hr : Exact fits put r) {db : Sled} {cf : Cf} {key : Bytes} {v : Option ν}
    (hget : db.cfGet cf key = v.map put) (hfits : ∀ a ∈ v, fits a) :
    db.getDecoded r cf key = .ok v := by
  rw [Sled.getDecoded, hget]
  cases v with
  | none => rfl
  | some a => simp only [Option.map_some, hr.decodePrefix_put (hfits a rfl)]

theorem Sled.getDecoded_of_stores {κ ν : Type} [Ord κ] [Std.TransOrd κ] {l : Layout κ ν}
    {r : Reader ν} (hr : Exact l.fits l.put r) {db : Sled} {cf : Cf} {t : Table κ ν}
    (h : Stores l (db.openTree cf) t) {k : κ} (hk : k ∈ l.dom) :
    db.getDecoded r cf (l.key k) = .ok t[k]? :=
  Sled.getDecoded_of_get hr (h.get k hk) (h.fits k)

/-! ## The relation -/

/-- The bytes of each tree encode the typed database. -/
structure Encodes (db : Sled) (typed : Db) : Prop where
  blocks : Stores (hashLayout Block.Fits Block.serialize) (db.openTree .blocks) typed.blocks
  txs : Stores (hashLayout Transaction.Fits Transaction.serialize) (db.openTree .txs) typed.txs
  nullifiers : Stores (hashLayout (fun _ => True) putU64) (db.openTree .nullifiers)
    typed.nullifiers
  commitments : Stores leafLayout (db.openTree .commitments) typed.commitments
  frontier : db.cfGet .tree Sled.frontierKey =
    typed.treeFrontier.map fun frontier => Sled.putFrontier frontier.val
  size : db.cfGet .tree Sled.sizeKey = typed.treeSize.map (leBytes 8)
  size_lt : ∀ n ∈ typed.treeSize, n < lengthBound
  validators : (db.openTree .validators).values = typed.validators.map ValidatorState.serialize
  contracts : Stores (hashLayout (fun _ => True) id) (db.openTree .contracts) typed.contracts
  contractState : db.openTree .contractState = typed.contractState
  anchors : Stores (hashLayout (fun _ => True) putU64) (db.openTree .anchors) typed.anchors
  chainHeight : db.cfGet .metaData Sled.chainHeightKey = typed.chainHeight.map putU64
  heightHash : Stores heightLayout (db.openTree .metaData) typed.heightHash

theorem encodes_empty : Encodes Sled.empty {} where
  blocks := .empty
  txs := .empty
  nullifiers := .empty
  commitments := .empty
  frontier := by simp [Sled.empty, Sled.cfGet]
  size := by simp [Sled.empty, Sled.cfGet]
  size_lt := nofun
  validators := rfl
  contracts := .empty
  contractState := rfl
  anchors := .empty
  chainHeight := by simp [Sled.empty, Sled.cfGet]
  heightHash := .empty

structure Simulates (raw : SledStore) (store : StateStore) : Prop where
  db : Encodes raw.db store.db
  tree : raw.tree = store.tree

theorem simulates_empty : Simulates SledStore.empty StateStore.empty where
  db := encodes_empty
  tree := rfl

namespace Encodes

variable {db : Sled} {typed : Db} (h : Encodes db typed)

include h

/-! ## One write -/

theorem putNullifier (nullifier : Hash32) (height : UInt64) :
    Encodes (db.cfPut .nullifiers nullifier.toList (putU64 height))
      { typed with nullifiers := typed.nullifiers.insert nullifier height } :=
  { h with nullifiers := h.nullifiers.insert (Set.mem_univ nullifier) trivial }

theorem putBlockEntry {block : Block} (hfits : block.Fits) (hash : BlockHash) :
    Encodes (db.cfPut .blocks hash.toList block.serialize)
      { typed with blocks := typed.blocks.insert hash block } :=
  { h with blocks := h.blocks.insert (Set.mem_univ hash) hfits }

theorem putTx {tx : Transaction} (hfits : tx.Fits) (txId : TxId) :
    Encodes (db.cfPut .txs txId.toList tx.serialize)
      { typed with txs := typed.txs.insert txId tx } :=
  { h with txs := h.txs.insert (Set.mem_univ txId) hfits }

theorem removeTx (txId : TxId) :
    Encodes (db.remove .txs txId.toList) { typed with txs := typed.txs.erase txId } :=
  { h with txs := h.txs.erase (Set.mem_univ txId) }

theorem removeBlock (hash : BlockHash) :
    Encodes (db.remove .blocks hash.toList) { typed with blocks := typed.blocks.erase hash } :=
  { h with blocks := h.blocks.erase (Set.mem_univ hash) }

theorem putAnchor (root : StateRoot) (expiry : UInt64) :
    Encodes (db.cfPut .anchors root.toList (putU64 expiry))
      { typed with anchors := typed.anchors.insert root expiry } :=
  { h with anchors := h.anchors.insert (Set.mem_univ root) trivial }

theorem putContract (id : Hash32) (bytecode : Bytes) :
    Encodes (db.cfPut .contracts id.toList bytecode)
      { typed with contracts := typed.contracts.insert id bytecode } :=
  { h with contracts := h.contracts.insert (Set.mem_univ id) trivial }

theorem putContractState (key value : Bytes) :
    Encodes (db.cfPut .contractState key value)
      { typed with contractState := typed.contractState.insert key value } :=
  { h with contractState := congrArg (·.insert key value) h.contractState }

theorem putChainHeight (height : UInt64) :
    Encodes (db.cfPut .metaData Sled.chainHeightKey (putU64 height))
      { typed with chainHeight := some height } :=
  { h with
    chainHeight := by
      show ((db.openTree .metaData).insert Sled.chainHeightKey (putU64 height))[_]? = _
      rw [Table.get_insert, if_pos rfl]
      rfl
    heightHash := h.heightHash.insert_other fun k _ => chainHeightKey_ne_heightKey k }

theorem putHeightHash (height : UInt64) (hash : BlockHash) :
    Encodes (db.cfPut .metaData (Sled.heightKey height) hash.toList)
      { typed with heightHash := typed.heightHash.insert height hash } :=
  { h with
    chainHeight := by
      show ((db.openTree .metaData).insert (Sled.heightKey height) hash.toList)[_]? = _
      rw [Table.get_insert, if_neg (chainHeightKey_ne_heightKey height).symm]
      exact h.chainHeight
    heightHash := h.heightHash.insert (Set.mem_univ height) trivial }

theorem removeHeightHash (height : UInt64) :
    Encodes (db.remove .metaData (Sled.heightKey height))
      { typed with heightHash := typed.heightHash.erase height } :=
  { h with
    chainHeight := by
      show ((db.openTree .metaData).erase (Sled.heightKey height))[_]? = _
      rw [Table.get_erase, if_neg (chainHeightKey_ne_heightKey height).symm]
      exact h.chainHeight
    heightHash := h.heightHash.erase (Set.mem_univ height) }

theorem putCommitment {leafIndex : Nat} (hindex : leafIndex < lengthBound) (commitment : Hash32) :
    Encodes (db.cfPut .commitments (Sled.toBeBytes leafIndex) commitment.toList)
      { typed with commitments := typed.commitments.insert leafIndex commitment } :=
  { h with commitments := h.commitments.insert hindex trivial }

theorem putNoteTree {tree : NoteCommitmentTree} (hsize : tree.size < lengthBound) :
    Encodes ((db.cfPut .tree Sled.frontierKey (Sled.putFrontier tree.frontier.val)).cfPut .tree
        Sled.sizeKey (leBytes 8 tree.size))
      { typed with treeFrontier := some tree.frontier, treeSize := some tree.size } :=
  { h with
    frontier := by
      show (((db.openTree .tree).insert Sled.frontierKey _).insert Sled.sizeKey _)[_]? = _
      rw [Table.get_insert, if_neg Sled.frontierKey_ne_sizeKey.symm, Table.get_insert, if_pos rfl]
      rfl
    size := by
      show (((db.openTree .tree).insert Sled.frontierKey _).insert Sled.sizeKey _)[_]? = _
      rw [Table.get_insert, if_pos rfl]
      rfl
    size_lt := by
      rintro _ ⟨⟩
      exact hsize }

/-! ## Lists of writes -/

theorem putTxs [Blake3] {txs : List Transaction} (hfits : ∀ tx ∈ txs, tx.Fits) :
    Encodes (txs.foldl (fun db tx => db.cfPut .txs tx.txId.toList tx.serialize) db)
      { typed with txs := txs.foldl (fun txs tx => txs.insert tx.txId tx) typed.txs } := by
  induction txs generalizing db typed with
  | nil => exact h
  | cons tx txs ih =>
      obtain ⟨htx, htxs⟩ := List.forall_mem_cons.mp hfits
      exact ih (h.putTx htx tx.txId) htxs

theorem removeTxs [Blake3] (txs : List Transaction) :
    Encodes (txs.foldl (fun db tx => db.remove .txs tx.txId.toList) db)
      { typed with txs := txs.foldl (fun txs tx => txs.erase tx.txId) typed.txs } := by
  induction txs generalizing db typed with
  | nil => exact h
  | cons tx txs ih => exact ih (h.removeTx tx.txId)

theorem putContracts (newContracts : List (Hash32 × Bytes)) :
    Encodes
      (newContracts.foldl (fun db (id, bytecode) => db.cfPut .contracts id.toList bytecode) db)
      { typed with
        contracts := newContracts.foldl (fun contracts (id, bytecode) =>
          contracts.insert id bytecode) typed.contracts } := by
  induction newContracts generalizing db typed with
  | nil => exact h
  | cons entry newContracts ih => exact ih (h.putContract entry.1 entry.2)

theorem putContractStates (changes : Table Bytes Bytes) :
    Encodes (changes.foldl (fun db key value => db.cfPut .contractState key value) db)
      { typed with
        contractState := changes.foldl (fun state key value => state.insert key value)
          typed.contractState } := by
  rw [Std.ExtTreeMap.foldl_eq_foldl_toList, Std.ExtTreeMap.foldl_eq_foldl_toList]
  generalize changes.toList = entries
  induction entries generalizing db typed with
  | nil => exact h
  | cons entry entries ih => exact ih (h.putContractState entry.1 entry.2)

theorem putBlock [Blake3] {block : Block} (hfits : block.Fits) :
    Encodes (db.putBlock block) (typed.putBlock block) :=
  (h.putBlockEntry hfits block.blockHash).putTxs hfits.transactions.2

/-! ## Reads -/

theorem getBlock_eq (hash : BlockHash) : db.getBlock hash = .ok (typed.getBlock hash) :=
  Sled.getDecoded_of_stores Block.exact h.blocks (Set.mem_univ hash)

theorem getTransaction_eq (txId : TxId) :
    db.getTransaction txId = .ok (typed.getTransaction txId) :=
  Sled.getDecoded_of_stores Transaction.exact h.txs (Set.mem_univ txId)

theorem getCommitment_eq {leafIndex : Nat} (hindex : leafIndex < lengthBound) :
    db.getCommitment leafIndex = NoteCommitmentTree.getCommitment typed leafIndex := by
  unfold Sled.getCommitment NoteCommitmentTree.getCommitment
  have hget : db.cfGet .commitments (Sled.toBeBytes leafIndex) =
      (typed.commitments[leafIndex]?).map Vector.toList := h.commitments.get leafIndex hindex
  rw [hget, Option.map_map]
  cases typed.commitments[leafIndex]? with
  | none => rfl
  | some commitment =>
      rw [Option.map_some, Function.comp_apply, Sled.copyHash_toList]

theorem openNoteTree_eq : db.openNoteTree = .ok (NoteCommitmentTree.openDb typed) := by
  have hsize : (((db.cfGet .tree Sled.sizeKey).map Sled.fromLeBytes).getD 0).toNat =
      typed.treeSize.getD 0 := by
    rw [h.size]
    cases hn : typed.treeSize with
    | none => rfl
    | some n =>
        have hlt : n < lengthBound := h.size_lt n hn
        have hback : Sled.fromLeBytes (leBytes 8 n) = UInt64.ofNat n := by
          rw [Sled.fromLeBytes, if_pos (length_leBytes 8 n), leValue_leBytes hlt]
        show (Sled.fromLeBytes (leBytes 8 n)).toNat = n
        rw [hback]
        exact UInt64.toNat_ofNat_of_lt' hlt
  have hslots : db.getDecoded Sled.readFrontier .tree Sled.frontierKey =
      .ok (typed.treeFrontier.map (·.val)) := by
    apply Sled.getDecoded_of_get exact_frontier
    · rw [h.frontier, Option.map_map]
      rfl
    · rintro slots hslots
      obtain ⟨frontier, -, rfl⟩ := Option.map_eq_some_iff.mp hslots
      exact frontier.fits
  unfold Sled.openNoteTree NoteCommitmentTree.openDb
  rw [hslots, ← hsize]
  cases typed.treeFrontier with
  | none => rfl
  | some frontier => simp only [Option.map_some, dif_pos frontier.property, Option.getD_some]

end Encodes

/-! ## Operations -/

namespace Simulates

variable {raw : SledStore} {store : StateStore} (h : Simulates raw store)

include h

theorem containsNullifier_eq (nullifier : Hash32) :
    raw.containsNullifier nullifier = store.containsNullifier nullifier := by
  have hget : raw.db.cfGet .nullifiers nullifier.toList =
      (store.db.nullifiers[nullifier]?).map putU64 :=
    h.db.nullifiers.get nullifier (Set.mem_univ nullifier)
  rw [SledStore.containsNullifier, hget, Option.isSome_map]
  rfl

theorem chainHeight_eq :
    raw.hasBlocks = store.hasBlocks ∧ raw.getChainHeight = store.getChainHeight ∧
      raw.expectedHeight = store.expectedHeight := by
  have hblocks : raw.hasBlocks = store.hasBlocks := by
    rw [SledStore.hasBlocks, h.db.chainHeight, Option.isSome_map]
    rfl
  have hheight : raw.getChainHeight = store.getChainHeight := by
    unfold SledStore.getChainHeight StateStore.getChainHeight
    rw [h.db.chainHeight]
    cases store.db.chainHeight with
    | none => rfl
    | some height => exact Sled.fromLeBytes_putU64 height
  refine ⟨hblocks, hheight, ?_⟩
  rw [SledStore.expectedHeight, StateStore.expectedHeight, hblocks, hheight]

theorem applySpends (height : UInt64) (spends : List SpendDescription) :
    Simulates (raw.applySpends height spends).1 (store.applySpends height spends).1 ∧
      (raw.applySpends height spends).2 = (store.applySpends height spends).2 := by
  induction spends generalizing raw store with
  | nil => exact ⟨h, rfl⟩
  | cons spend spends ih =>
      rw [SledStore.applySpends, StateStore.applySpends, h.containsNullifier_eq]
      by_cases hspent : store.containsNullifier spend.nullifier
      · rw [if_pos hspent, if_pos hspent]
        exact ⟨h, rfl⟩
      · rw [if_neg hspent, if_neg hspent]
        exact ih ⟨h.db.putNullifier spend.nullifier height, h.tree⟩

section

variable [Blake3]

theorem appendCommitment (commitment : Hash32) (hroom : store.tree.size + 1 < lengthBound) :
    Simulates (raw.appendCommitment commitment) (store.appendCommitment commitment) := by
  have hindex : store.tree.size < lengthBound := by omega
  have hnew : (store.tree.appended commitment).size < lengthBound := hroom
  unfold SledStore.appendCommitment Sled.append
  rw [h.tree]
  refine ⟨?_, rfl⟩
  exact ((h.db.putCommitment hindex commitment).putNoteTree hnew).putCommitment hindex commitment

theorem applyOutputs {outs : List OutputDescription}
    (hroom : store.tree.size + outs.length < lengthBound) :
    Simulates (raw.applyOutputs outs) (store.applyOutputs outs) := by
  induction outs generalizing raw store with
  | nil => exact h
  | cons out outs ih =>
      rw [List.length_cons] at hroom
      have hsize : (store.appendCommitment out.noteCommitment).tree.size = store.tree.size + 1 :=
        rfl
      have hrest : (store.appendCommitment out.noteCommitment).tree.size + outs.length <
          lengthBound := by omega
      exact ih (h.appendCommitment out.noteCommitment (by omega)) hrest

end

end Simulates

namespace StateStore

theorem tree_applySpends (height : UInt64) (store : StateStore) (spends : List SpendDescription) :
    (store.applySpends height spends).1.tree = store.tree := by
  induction spends generalizing store with
  | nil => rfl
  | cons spend spends ih =>
      rw [applySpends]
      split
      · rfl
      · exact ih _

theorem size_applyOutputs [Blake3] (store : StateStore) (outs : List OutputDescription) :
    (store.applyOutputs outs).tree.size = store.tree.size + outs.length := by
  induction outs generalizing store with
  | nil => rfl
  | cons out outs ih =>
      have hsize : (store.appendCommitment out.noteCommitment).tree.size = store.tree.size + 1 :=
        rfl
      show ((store.appendCommitment out.noteCommitment).applyOutputs outs).tree.size = _
      rw [ih, hsize, List.length_cons]
      omega

end StateStore

def outputCount (txs : List Transaction) : Nat := (txs.map fun tx => tx.outputs.length).sum

namespace Simulates

variable [Blake3] {raw : SledStore} {store : StateStore} (h : Simulates raw store)

include h

theorem applyTransactions (height : UInt64) {txs : List Transaction}
    (hroom : store.tree.size + outputCount txs < lengthBound) :
    Simulates (raw.applyTransactions height txs).1 (store.applyTransactions height txs).1 ∧
      (raw.applyTransactions height txs).2 = (store.applyTransactions height txs).2 := by
  induction txs generalizing raw store with
  | nil => exact ⟨h, rfl⟩
  | cons tx txs ih =>
      obtain ⟨hsim, hresult⟩ := h.applySpends height tx.spends
      have htree := store.tree_applySpends height tx.spends
      rw [outputCount, List.map_cons, List.sum_cons] at hroom
      rw [SledStore.applyTransactions, StateStore.applyTransactions]
      rcases hraw : raw.applySpends height tx.spends with ⟨raw', result⟩
      rcases htyped : store.applySpends height tx.spends with ⟨store', result'⟩
      rw [hraw, htyped] at hsim hresult
      rw [htyped] at htree
      subst hresult
      cases result with
      | error e => exact ⟨hsim, rfl⟩
      | ok _ =>
          have hsize : store'.tree.size = store.tree.size := congrArg (·.size) htree
          have houts := store'.size_applyOutputs tx.outputs
          have hrest : (store'.applyOutputs tx.outputs).tree.size + outputCount txs <
              lengthBound := by
            rw [houts, hsize, outputCount]
            omega
          have hthis : store'.tree.size + tx.outputs.length < lengthBound := by omega
          exact ih (hsim.applyOutputs hthis) hrest

theorem finishBlock {block : Block} (hfits : block.Fits) (changes : Table Bytes Bytes)
    (newContracts : List (Hash32 × Bytes)) :
    Simulates (raw.finishBlock block changes newContracts).1
        (store.finishBlock block changes newContracts).1 ∧
      (raw.finishBlock block changes newContracts).2 =
        (store.finishBlock block changes newContracts).2 := by
  have hroot : raw.stateRoot = store.stateRoot := by
    rw [SledStore.stateRoot, StateStore.stateRoot, h.tree]
  unfold SledStore.finishBlock StateStore.finishBlock
  rw [hroot]
  refine ⟨⟨?_, h.tree⟩, rfl⟩
  exact (((((h.db.putAnchor _ _).putContracts newContracts).putContractStates changes).putBlock
    hfits).putChainHeight _).putHeightHash _ _

theorem applyBlock {block : Block} (hfits : block.Fits)
    (hroom : store.tree.size + outputCount block.transactions < lengthBound)
    (changes : Table Bytes Bytes) (newContracts : List (Hash32 × Bytes)) :
    Simulates (raw.applyBlock block changes newContracts).1
        (store.applyBlock block changes newContracts).1 ∧
      (raw.applyBlock block changes newContracts).2 =
        (store.applyBlock block changes newContracts).2 := by
  unfold SledStore.applyBlock StateStore.applyBlock
  rw [h.chainHeight_eq.2.2]
  by_cases hheight : block.header.height ≠ store.expectedHeight
  · rw [if_pos hheight, if_pos hheight]
    exact ⟨h, rfl⟩
  · rw [if_neg hheight, if_neg hheight]
    obtain ⟨hsim, hresult⟩ := h.applyTransactions block.header.height hroom
    rcases hraw : raw.applyTransactions block.header.height block.transactions with ⟨raw', result⟩
    rcases htyped : store.applyTransactions block.header.height block.transactions with
      ⟨store', result'⟩
    rw [hraw, htyped] at hsim hresult
    subst hresult
    cases result with
    | error e => exact ⟨hsim, rfl⟩
    | ok _ =>
        obtain ⟨hfinish, hroot⟩ := hsim.finishBlock hfits changes newContracts
        exact ⟨hfinish, congrArg Except.ok hroot⟩

end Simulates

/-! ## Pruning -/

section

variable [Blake3] {db : Sled} {typed : Db}

theorem Encodes.deleteBlock (h : Encodes db typed) (hash : BlockHash) :
    Encodes (db.deleteBlock hash).1 (typed.deleteBlock hash) ∧
      (db.deleteBlock hash).2 = .ok () := by
  unfold Sled.deleteBlock Db.deleteBlock
  rw [h.getBlock_eq]
  cases typed.getBlock hash with
  | none => exact ⟨h, rfl⟩
  | some block => exact ⟨(h.removeTxs block.transactions).removeBlock hash, rfl⟩

theorem Encodes.pruneHeights (h : Encodes db typed) (heights : List Nat) (count : UInt64) :
    let pruned := heights.foldl (fun pruned h => StateStore.pruneHeight pruned (.ofNat h))
      (typed, count)
    Encodes (SledStore.pruneHeights heights db count).1 pruned.1 ∧
      (SledStore.pruneHeights heights db count).2 = .ok pruned.2 := by
  induction heights generalizing db typed count with
  | nil => exact ⟨h, rfl⟩
  | cons height heights ih =>
      have hget : db.cfGet .metaData (Sled.heightKey (.ofNat height)) =
          (typed.heightHash[UInt64.ofNat height]?).map Vector.toList :=
        h.heightHash.get (.ofNat height) (Set.mem_univ _)
      rw [SledStore.pruneHeights, List.foldl_cons, StateStore.pruneHeight, hget]
      cases hindex : typed.heightHash[UInt64.ofNat height]? with
      | none => exact ih h count
      | some hash =>
          obtain ⟨hdelete, hok⟩ := (h.removeHeightHash (.ofNat height)).deleteBlock hash
          simp only [Option.map_some, Sled.copyHash_toList]
          rcases hraw : (db.remove .metaData (Sled.heightKey (.ofNat height))).deleteBlock hash
            with ⟨db', result⟩
          rw [hraw] at hdelete hok
          subst hok
          exact ih hdelete (count + 1)

end

namespace Simulates

variable [Blake3] {raw : SledStore} {store : StateStore} (h : Simulates raw store)

include h

theorem pruneHistory (keepLast : UInt64) :
    Simulates (raw.pruneHistory keepLast).1 (store.pruneHistory keepLast).1 ∧
      (raw.pruneHistory keepLast).2 = .ok (store.pruneHistory keepLast).2 := by
  unfold SledStore.pruneHistory StateStore.pruneHistory
  rw [h.chainHeight_eq.2.1]
  by_cases hkeep : store.getChainHeight ≤ keepLast
  · rw [if_pos hkeep, if_pos hkeep]
    exact ⟨h, rfl⟩
  · rw [if_neg hkeep, if_neg hkeep]
    obtain ⟨hdb, hresult⟩ := h.db.pruneHeights
      (List.range (store.getChainHeight - keepLast).toNat) 0
    exact ⟨⟨hdb, h.tree⟩, hresult⟩

omit [Blake3] in
theorem reopen : ∃ reopened, SledStore.openDb raw.db = .ok reopened ∧
    Simulates reopened (StateStore.openDb store.db) := by
  unfold SledStore.openDb
  rw [h.db.openNoteTree_eq]
  exact ⟨_, rfl, ⟨h.db, rfl⟩⟩

/-! ## Answers -/

omit [Blake3] in
theorem getBlockByHeight_eq (height : UInt64) :
    raw.getBlockByHeight height = .ok (store.getBlockByHeight height) := by
  have hget : raw.db.cfGet .metaData (Sled.heightKey height) =
      (store.db.heightHash[height]?).map Vector.toList :=
    h.db.heightHash.get height (Set.mem_univ height)
  unfold SledStore.getBlockByHeight StateStore.getBlockByHeight
  rw [hget]
  cases store.db.heightHash[height]? with
  | none => rfl
  | some hash =>
      simp only [Option.map_some, Sled.copyHash_toList]
      exact h.db.getBlock_eq hash

omit [Blake3] in
theorem isValidAnchor_eq (anchor : StateRoot) (currentHeight : UInt64) :
    raw.isValidAnchor anchor currentHeight = store.isValidAnchor anchor currentHeight := by
  have hget : raw.db.cfGet .anchors anchor.toList = (store.db.anchors[anchor]?).map putU64 :=
    h.db.anchors.get anchor (Set.mem_univ anchor)
  unfold SledStore.isValidAnchor StateStore.isValidAnchor
  rw [hget]
  cases store.db.anchors[anchor]? with
  | none => rfl
  | some expiry => simp only [Option.map_some, Sled.fromLeBytes_putU64]

omit [Blake3] in
theorem getContractCode_eq (contractId : Hash32) :
    raw.getContractCode contractId = store.getContractCode contractId := by
  have hget : raw.db.cfGet .contracts contractId.toList =
      (store.db.contracts[contractId]?).map id :=
    h.db.contracts.get contractId (Set.mem_univ contractId)
  rw [SledStore.getContractCode, hget, Option.map_id_fun, id, StateStore.getContractCode]

omit [Blake3] in
theorem getContractState_eq (contractId : Hash32) (key : Bytes) :
    raw.getContractState contractId key = store.getContractState contractId key := by
  rw [SledStore.getContractState, Sled.cfGet, h.db.contractState, StateStore.getContractState]

omit [Blake3] in
/-- A scan of the prefix is the pass over all entries that skips the others. -/
theorem getContractStateAll_eq (contractId : Hash32) :
    raw.getContractStateAll contractId = store.getContractStateAll contractId := by
  unfold SledStore.getContractStateAll StateStore.getContractStateAll
  rw [h.db.contractState, Std.ExtTreeMap.foldl_eq_foldl_toList]
  generalize store.db.contractState.toList = entries
  generalize (∅ : Table Bytes Bytes) = result
  induction entries generalizing result with
  | nil => rfl
  | cons entry entries ih =>
      obtain ⟨key, value⟩ := entry
      rw [List.foldl_cons, List.filter_cons]
      by_cases hstarts : contractId.toList.isPrefixOf key
      · have hlong : key.length ≥ 32 := by
          have hle := (List.isPrefixOf_iff_prefix.mp hstarts).length_le
          rwa [Vector.length_toList] at hle
        simp only [hstarts, if_true, List.foldl_cons, hlong]
        exact ih _
      · simp only [hstarts, Bool.false_eq_true, if_false]
        exact ih _

omit [Blake3] in
theorem getAllValidators_eq : raw.getAllValidators = .ok store.getAllValidators := by
  unfold SledStore.getAllValidators StateStore.getAllValidators
  rw [h.db.validators]
  generalize store.db.validators = validators
  induction validators with
  | nil => rfl
  | cons validator validators ih =>
      rw [List.map_cons, List.mapM_cons, ih, ValidatorState.exact.decodePrefix_put trivial]
      rfl

end Simulates

/-- What the node reads from its store, byte for byte the same. -/
structure SameAnswers (raw : SledStore) (store : StateStore) : Prop where
  chainHeight : raw.getChainHeight = store.getChainHeight ∧ raw.hasBlocks = store.hasBlocks
  block : ∀ height, raw.getBlockByHeight height = .ok (store.getBlockByHeight height)
  blockByHash : ∀ hash, raw.db.getBlock hash = .ok (store.db.getBlock hash)
  transaction : ∀ txId, raw.db.getTransaction txId = .ok (store.db.getTransaction txId)
  commitment : ∀ i < lengthBound,
    raw.db.getCommitment i = NoteCommitmentTree.getCommitment store.db i
  nullifier : ∀ nullifier, raw.containsNullifier nullifier = store.containsNullifier nullifier
  anchor : ∀ anchor height, raw.isValidAnchor anchor height = store.isValidAnchor anchor height
  contractCode : ∀ contractId, raw.getContractCode contractId = store.getContractCode contractId
  contractState : ∀ contractId key,
    raw.getContractState contractId key = store.getContractState contractId key
  contractStateAll : ∀ contractId,
    raw.getContractStateAll contractId = store.getContractStateAll contractId
  validators : raw.getAllValidators = .ok store.getAllValidators
  tree : raw.tree = store.tree

theorem sameAnswers_of_simulates {raw : SledStore} {store : StateStore}
    (h : Simulates raw store) : SameAnswers raw store where
  chainHeight := ⟨h.chainHeight_eq.2.1, h.chainHeight_eq.1⟩
  block := h.getBlockByHeight_eq
  blockByHash := h.db.getBlock_eq
  transaction := h.db.getTransaction_eq
  commitment _ := h.db.getCommitment_eq
  nullifier := h.containsNullifier_eq
  anchor := h.isValidAnchor_eq
  contractCode := h.getContractCode_eq
  contractState := h.getContractState_eq
  contractStateAll := h.getContractStateAll_eq
  validators := h.getAllValidators_eq
  tree := h.tree

/-! ## Runs -/

/-- The lengths in the block fit a `u64`, and so does the size of the tree behind it. -/
def StoreOp.Fits (store : StateStore) : StoreOp → Prop
  | .applyBlock block _ _ =>
      block.Fits ∧ store.tree.size + outputCount block.transactions < lengthBound
  | .pruneHistory _ | .reopen => True

section

variable [Blake3]

theorem simulates_step {raw : SledStore} {store : StateStore} {op : StoreOp}
    (hfits : op.Fits store) (h : Simulates raw store) :
    Simulates (sledMachine.step raw op).1 (storeMachine.step store op).1 ∧
      (sledMachine.step raw op).2 = (storeMachine.step store op).2.map .ok := by
  cases op with
  | applyBlock block changes contracts =>
      obtain ⟨hsim, hresult⟩ := h.applyBlock hfits.1 hfits.2 changes contracts
      simp only [sledMachine, storeMachine]
      rcases hraw : raw.applyBlock block changes contracts with ⟨raw', result⟩
      rcases htyped : store.applyBlock block changes contracts with ⟨store', result'⟩
      rw [hraw, htyped] at hsim hresult
      subst hresult
      cases result with
      | error e => exact ⟨hsim, rfl⟩
      | ok root => exact ⟨hsim, rfl⟩
  | pruneHistory keepLast =>
      obtain ⟨hsim, hresult⟩ := h.pruneHistory keepLast
      simp only [sledMachine, storeMachine]
      rcases hraw : raw.pruneHistory keepLast with ⟨raw', result⟩
      rw [hraw] at hsim hresult
      subst hresult
      exact ⟨hsim, rfl⟩
  | reopen =>
      obtain ⟨reopened, hopen, hsim⟩ := h.reopen
      simp only [sledMachine, storeMachine, hopen]
      exact ⟨hsim, rfl⟩

/-- Over any run from an empty database in which the lengths fit, the store over bytes
applies the same blocks as the typed store, meets no value that does not decode, and
answers every read as the typed store does. -/
theorem sled_refines_store (ops : List StoreOp)
    (hfits : storeMachine.Admissible (fun store op => op.Fits store) StateStore.empty ops) :
    sledMachine.outputs SledStore.empty ops =
        (storeMachine.outputs StateStore.empty ops).map .ok ∧
      SameAnswers (sledMachine.final SledStore.empty ops)
        (storeMachine.final StateStore.empty ops) := by
  obtain ⟨hfinal, houtputs⟩ := Machine.simulation Simulates Except.ok
    (fun _ _ _ hop h => simulates_step hop h) simulates_empty hfits
  exact ⟨houtputs, sameAnswers_of_simulates hfinal⟩

end

/-! ## A run with a note -/

section

attribute [local instance] Blake3.sum

def genesisOps : List StoreOp :=
  [.applyBlock (Block.blank 0 (fill 32 0)
      [Transaction.blank [] [OutputDescription.blank (fill 32 7)] []]) ∅ [],
    .applyBlock (Block.blank 1 (fill 32 0) []) ∅ [], .pruneHistory 0, .reopen]

theorem genesisOps_fit :
    storeMachine.Admissible (fun store op => op.Fits store) StateStore.empty genesisOps :=
  ⟨⟨Block.fits_of_length (by decide +kernel), by decide +kernel⟩,
    ⟨Block.fits_of_length (by decide +kernel), by decide +kernel⟩, trivial, trivial, trivial⟩

theorem sled_refines_genesis :
    sledMachine.outputs SledStore.empty genesisOps =
        (storeMachine.outputs StateStore.empty genesisOps).map .ok ∧
      SameAnswers (sledMachine.final SledStore.empty genesisOps)
        (storeMachine.final StateStore.empty genesisOps) :=
  sled_refines_store genesisOps genesisOps_fit

end

end NoirNet
