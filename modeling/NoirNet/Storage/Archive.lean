import NoirNet.Identifiers
import NoirNet.Storage.Frame

/-!
# The blocks by height

`get_block_by_height` goes through two tables, the index by height and the
blocks by hash.  As long as the index leads to blocks of the right height, the
two behave as one table:

* `getBlockByHeight_of_accepts`: an accepted block is set at its height;
* `getBlockByHeight_pruneHistory`: pruning clears the heights below its bound.
-/

namespace NoirNet

open Lib StateStore

variable [Blake3]

def Indexed (inputs : Set Bytes) (store : StateStore) : Prop :=
  ∀ (height : UInt64) (hash : BlockHash), store.db.heightHash[height]? = some hash →
    ∃ block, store.db.blocks[hash]? = some block ∧ block.blockHash = hash ∧
      block.header.height = height ∧ block.header.serialize ∈ inputs

theorem indexed_empty (inputs : Set Bytes) : Indexed inputs StateStore.empty := by
  intro height hash h
  have hnone : StateStore.empty.db.heightHash[height]? = none := rfl
  rw [hnone] at h
  cases h

theorem StateStore.SameExceptBody.indexed {inputs : Set Bytes} {store store' : StateStore}
    (h : SameExceptBody store store') (hindexed : Indexed inputs store) :
    Indexed inputs store' := by
  obtain ⟨_, _, _, _, _, rfl⟩ := h
  exact hindexed

omit [Blake3] in
theorem getBlockByHeight_eq_some {store : StateStore} {height : UInt64} {block : Block} :
    store.getBlockByHeight height = some block ↔
      ∃ hash, store.db.heightHash[height]? = some hash ∧ store.db.blocks[hash]? = some block := by
  unfold StateStore.getBlockByHeight Db.getBlock
  cases store.db.heightHash[height]? with
  | none => simp
  | some hash => simp

section

variable {inputs : Set Bytes} {store : StateStore} (h : Indexed inputs store)

include h

theorem Indexed.found {height : UInt64} {block : Block}
    (hfound : store.getBlockByHeight height = some block) :
    block.header.height = height ∧ store.db.heightHash[height]? = some block.blockHash ∧
      store.db.blocks[block.blockHash]? = some block ∧ block.header.serialize ∈ inputs := by
  obtain ⟨hash, hindex, hblock⟩ := getBlockByHeight_eq_some.mp hfound
  obtain ⟨block', hblock', rfl, hheight, hinputs⟩ := h height hash hindex
  cases hblock.symm.trans hblock'
  exact ⟨hheight, hindex, hblock, hinputs⟩

theorem Indexed.height_unique {height height' : UInt64} {hash : BlockHash}
    (hindex : store.db.heightHash[height]? = some hash)
    (hindex' : store.db.heightHash[height']? = some hash) : height = height' := by
  obtain ⟨block, hblock, -, hheight, -⟩ := h height hash hindex
  obtain ⟨block', hblock', -, hheight', -⟩ := h height' hash hindex'
  cases hblock.symm.trans hblock'
  rw [← hheight, hheight']

end

/-! ## An accepted block -/

section

variable {inputs : Set Bytes} (hfree : Blake3.CollisionFree inputs) {store : StateStore}
  {block : Block} (hindexed : Indexed inputs store) (hblock : block.header.serialize ∈ inputs)
  (haccept : store.Accepts block) (changes : Table Bytes Bytes)
  (contracts : List (Hash32 × Bytes))

include hfree hindexed hblock in
theorem height_eq_of_hash {height : UInt64}
    (h : store.db.heightHash[height]? = some block.blockHash) : block.header.height = height := by
  obtain ⟨old, -, hhash, hheight, hold⟩ := hindexed height _ h
  have hheader : old.header = block.header := BlockHeader.eq_of_hash_eq hfree hold hblock hhash
  rw [← hheight, hheader]

include hfree hindexed hblock haccept in
/-- An accepted block changes the block at its height and no other. -/
theorem getBlockByHeight_of_accepts (height : UInt64) :
    (store.applyBlock block changes contracts).1.getBlockByHeight height =
      if block.header.height = height then some block else store.getBlockByHeight height := by
  by_cases hheight : block.header.height = height
  · subst hheight
    rw [if_pos rfl, getBlockByHeight_applyBlock_self haccept]
  · rw [if_neg hheight]
    unfold StateStore.getBlockByHeight Db.getBlock
    simp only [heightHash_applyBlock haccept, blocks_applyBlock haccept, if_neg hheight]
    cases hindex : store.db.heightHash[height]? with
    | none => rfl
    | some hash =>
        have hne : block.blockHash ≠ hash := by
          rintro rfl
          exact hheight (height_eq_of_hash hfree hindexed hblock hindex)
        simp only [hne, if_false]

include hfree hindexed hblock haccept in
theorem indexed_applyBlock : Indexed inputs (store.applyBlock block changes contracts).1 := by
  intro height hash h
  rw [heightHash_applyBlock haccept] at h
  by_cases hheight : block.header.height = height
  · rw [if_pos hheight] at h
    cases h
    exact ⟨block, by rw [blocks_applyBlock haccept, if_pos rfl], rfl, hheight, hblock⟩
  · rw [if_neg hheight] at h
    obtain ⟨old, hold, hhash, hrest⟩ := hindexed height hash h
    have hne : block.blockHash ≠ hash := by
      rintro rfl
      exact hheight (height_eq_of_hash hfree hindexed hblock h)
    exact ⟨old, by rw [blocks_applyBlock haccept, if_neg hne, hold], hhash, hrest⟩

end

/-! ## Pruning -/

def HoldsTx (store : StateStore) (heights : List UInt64) (id : TxId) : Prop :=
  ∃ height ∈ heights, ∃ block, store.getBlockByHeight height = some block ∧
    id ∈ block.transactions.map Transaction.txId

/-- The blocks at these heights are gone, `count` of them, and so are their transactions. -/
structure Cleared (inputs : Set Bytes) (heights : List UInt64) (store store' : StateStore)
    (count : Nat) : Prop where
  indexed : Indexed inputs store'
  blocks : ∀ height, store'.getBlockByHeight height =
    if height ∈ heights then none else store.getBlockByHeight height
  gone : ∀ id, HoldsTx store heights id → store'.db.txs[id]? = none
  kept : ∀ id, ¬ HoldsTx store heights id → store'.db.txs[id]? = store.db.txs[id]?
  size : store'.db.blocks.size + count = store.db.blocks.size
  count_le : count ≤ heights.length

theorem cleared_nil {inputs : Set Bytes} {store : StateStore} (h : Indexed inputs store) :
    Cleared inputs [] store store 0 where
  indexed := h
  blocks _ := by simp
  gone := by simp [HoldsTx]
  kept _ _ := rfl
  size := rfl
  count_le := le_rfl

section

variable {inputs : Set Bytes} {height : UInt64} {heights : List UInt64}
  {store store' store'' : StateStore} {m n : Nat}

theorem Cleared.holdsTx_cons (h : Cleared inputs [height] store store' m) {id : TxId} :
    HoldsTx store (height :: heights) id ↔
      HoldsTx store [height] id ∨ HoldsTx store' heights id := by
  constructor
  · rintro ⟨a, ha, block, hblock, htx⟩
    by_cases hheight : a ∈ [height]
    · exact .inl ⟨a, hheight, block, hblock, htx⟩
    · have hlater : a ∈ heights :=
        (List.mem_cons.mp ha).resolve_left (mt List.mem_singleton.mpr hheight)
      refine .inr ⟨a, hlater, block, ?_, htx⟩
      rw [h.blocks, if_neg hheight, hblock]
  · rintro (⟨a, ha, hblock⟩ | ⟨a, ha, block, hblock, htx⟩)
    · exact ⟨a, by simp [List.mem_singleton.mp ha], hblock⟩
    · rw [h.blocks] at hblock
      by_cases hheight : a ∈ [height]
      · simp [hheight] at hblock
      · rw [if_neg hheight] at hblock
        exact ⟨a, List.mem_cons_of_mem _ ha, block, hblock, htx⟩

theorem Cleared.cons (h : Cleared inputs [height] store store' m)
    (h' : Cleared inputs heights store' store'' n) :
    Cleared inputs (height :: heights) store store'' (m + n) where
  indexed := h'.indexed
  blocks a := by
    rw [h'.blocks, h.blocks]
    by_cases hheight : a = height
    · simp [hheight]
    · simp [hheight]
  gone id hid := by
    by_cases hlater : HoldsTx store' heights id
    · exact h'.gone id hlater
    · rw [h'.kept id hlater]
      exact h.gone id ((h.holdsTx_cons.mp hid).resolve_right hlater)
  kept id hid := by
    obtain ⟨hfirst, hlater⟩ := not_or.mp (mt h.holdsTx_cons.mpr hid)
    rw [h'.kept id hlater, h.kept id hfirst]
  size := by
    have hfirst := h.size
    have hlater := h'.size
    omega
  count_le := by
    have hfirst := h.count_le
    have hlater := h'.count_le
    rw [List.length_cons]
    simp only [List.length_singleton] at hfirst
    omega

end

/-! ### One height -/

def Db.without (db : Db) (height : UInt64) (block : Block) : Db :=
  { db with
    heightHash := db.heightHash.erase height
    txs := block.transactions.foldl (fun txs tx => txs.erase tx.txId) db.txs
    blocks := db.blocks.erase block.blockHash }

section

variable {inputs : Set Bytes} {db : Db} {tree : NoteCommitmentTree} {height : UInt64}

theorem holdsTx_singleton {block : Block}
    (hfound : StateStore.getBlockByHeight ⟨db, tree⟩ height = some block) (id : TxId) :
    HoldsTx ⟨db, tree⟩ [height] id ↔ id ∈ block.transactions.map Transaction.txId := by
  constructor
  · rintro ⟨a, ha, block', hblock', htx⟩
    rw [List.mem_singleton.mp ha, hfound] at hblock'
    cases hblock'
    exact htx
  · intro htx
    exact ⟨height, List.mem_singleton_self _, block, hfound, htx⟩

theorem cleared_of_none (h : Indexed inputs ⟨db, tree⟩) (hindex : db.heightHash[height]? = none) :
    Cleared inputs [height] ⟨db, tree⟩ ⟨db, tree⟩ 0 := by
  have hnone : StateStore.getBlockByHeight ⟨db, tree⟩ height = none := by
    simp only [StateStore.getBlockByHeight, hindex]
  refine ⟨h, ?_, ?_, fun _ _ => rfl, rfl, Nat.zero_le _⟩
  · intro a
    by_cases ha : a = height
    · simp [ha, hnone]
    · simp [ha]
  · rintro id ⟨a, ha, block, hblock, -⟩
    rw [List.mem_singleton.mp ha, hnone] at hblock
    cases hblock

section

variable {block : Block} (h : Indexed inputs ⟨db, tree⟩)
  (hindex : db.heightHash[height]? = some block.blockHash)
  (hblock : db.blocks[block.blockHash]? = some block)

include h hindex

/-- The hash of a stored block is that of no other height. -/
theorem blockHash_ne {a : UInt64} {hash : BlockHash} (ha : height ≠ a)
    (hhash : db.heightHash[a]? = some hash) : block.blockHash ≠ hash := by
  rintro rfl
  exact ha (h.height_unique hindex hhash)

theorem indexed_without : Indexed inputs ⟨db.without height block, tree⟩ := by
  intro a hash ha
  simp only [Db.without, Table.get_erase] at ha ⊢
  by_cases heq : height = a
  · simp [heq] at ha
  · rw [if_neg heq] at ha
    obtain ⟨block', hblock', hrest⟩ := h a hash ha
    refine ⟨block', ?_, hrest⟩
    rw [if_neg (blockHash_ne h hindex heq ha)]
    exact hblock'

theorem getBlockByHeight_without (a : UInt64) :
    StateStore.getBlockByHeight ⟨db.without height block, tree⟩ a =
      if a = height then none else StateStore.getBlockByHeight ⟨db, tree⟩ a := by
  simp only [StateStore.getBlockByHeight, Db.getBlock, Db.without, Table.get_erase]
  by_cases heq : height = a
  · simp [heq]
  · rw [if_neg heq, if_neg (Ne.symm heq)]
    cases ha : db.heightHash[a]? with
    | none => rfl
    | some hash =>
        simp only
        rw [if_neg (blockHash_ne h hindex heq ha)]

include hblock

theorem cleared_without :
    Cleared inputs [height] ⟨db, tree⟩ ⟨db.without height block, tree⟩ 1 where
  indexed := indexed_without h hindex
  blocks a := by
    rw [getBlockByHeight_without h hindex]
    simp only [List.mem_singleton]
  gone id hid := by
    rw [holdsTx_singleton (getBlockByHeight_eq_some.mpr ⟨_, hindex, hblock⟩)] at hid
    rw [Db.without, Table.get_foldl_erase Transaction.txId, if_pos hid]
  kept id hid := by
    rw [holdsTx_singleton (getBlockByHeight_eq_some.mpr ⟨_, hindex, hblock⟩)] at hid
    rw [Db.without, Table.get_foldl_erase Transaction.txId, if_neg hid]
  size := Table.size_erase_add_one hblock
  count_le := le_rfl

end

/-- One turn of the loop removes the block at its height, if there is one. -/
theorem cleared_pruneHeight (h : Indexed inputs ⟨db, tree⟩) (count height : UInt64) :
    ∃ n : Nat, (pruneHeight (db, count) height).2 = count + .ofNat n ∧
      Cleared inputs [height] ⟨db, tree⟩ ⟨(pruneHeight (db, count) height).1, tree⟩ n := by
  cases hindex : db.heightHash[height]? with
  | none =>
      have hsame : pruneHeight (db, count) height = (db, count) := by
        simp only [pruneHeight, hindex]
      rw [hsame]
      exact ⟨0, (UInt64.add_zero _).symm, cleared_of_none h hindex⟩
  | some hash =>
      obtain ⟨block, hblock, rfl, hheight, -⟩ := h height hash hindex
      have hpruned : pruneHeight (db, count) height = (db.without height block, count + 1) := by
        simp only [pruneHeight, hindex, Db.deleteBlock, Db.getBlock]
        rw [show db.blocks[block.blockHash]? = some block from hblock]
        rfl
      rw [hpruned]
      exact ⟨1, rfl, cleared_without h hindex hblock⟩

end

theorem cleared_pruneHeights {inputs : Set Bytes} {tree : NoteCommitmentTree}
    (heights : List UInt64) {db : Db} (h : Indexed inputs ⟨db, tree⟩) (count : UInt64) :
    ∃ n : Nat, (heights.foldl pruneHeight (db, count)).2 = count + .ofNat n ∧
      Cleared inputs heights ⟨db, tree⟩ ⟨(heights.foldl pruneHeight (db, count)).1, tree⟩ n := by
  induction heights generalizing db count with
  | nil => exact ⟨0, (UInt64.add_zero _).symm, cleared_nil h⟩
  | cons height heights ih =>
      obtain ⟨m, hcount, hfirst⟩ := cleared_pruneHeight h count height
      obtain ⟨n, hcount', hrest⟩ := ih hfirst.indexed (pruneHeight (db, count) height).2
      refine ⟨m + n, ?_, hfirst.cons hrest⟩
      rw [List.foldl_cons, hcount', hcount, UInt64.ofNat_add, UInt64.add_assoc]

omit [Blake3] in
/-- The heights below this one go in a call of `prune_history`. -/
def StateStore.pruneBound (store : StateStore) (keepLast : UInt64) : UInt64 :=
  if store.getChainHeight ≤ keepLast then 0 else store.getChainHeight - keepLast

omit [Blake3] in
theorem mem_heightsBelow {bound height : UInt64} :
    height ∈ (List.range bound.toNat).map UInt64.ofNat ↔ height < bound := by
  rw [List.mem_map, UInt64.lt_iff_toNat_lt]
  constructor
  · rintro ⟨n, hn, rfl⟩
    rw [List.mem_range] at hn
    rwa [UInt64.toNat_ofNat_of_lt' (lt_trans hn bound.toNat_lt)]
  · intro h
    exact ⟨height.toNat, List.mem_range.mpr h, UInt64.ofNat_toNat⟩

theorem cleared_pruneHistory {inputs : Set Bytes} {store : StateStore}
    (h : Indexed inputs store) (keepLast : UInt64) :
    Cleared inputs ((List.range (store.pruneBound keepLast).toNat).map UInt64.ofNat) store
      (store.pruneHistory keepLast).1 (store.pruneHistory keepLast).2.toNat := by
  rw [StateStore.pruneHistory, StateStore.pruneBound]
  by_cases hkeep : store.getChainHeight ≤ keepLast
  · rw [if_pos hkeep, if_pos hkeep]
    exact cleared_nil h
  · rw [if_neg hkeep, if_neg hkeep]
    obtain ⟨n, hcount, hcleared⟩ := cleared_pruneHeights
      ((List.range (store.getChainHeight - keepLast).toNat).map UInt64.ofNat) h 0
    rw [List.foldl_map] at hcount hcleared
    have hsmall : n < UInt64.size := by
      have hle := hcleared.count_le
      rw [List.length_map, List.length_range] at hle
      exact lt_of_le_of_lt hle (UInt64.toNat_lt _)
    have hn : (0 + UInt64.ofNat n : UInt64).toNat = n := by
      rw [UInt64.zero_add]
      exact UInt64.toNat_ofNat_of_lt' hsmall
    dsimp only
    rw [hcount, hn]
    exact hcleared

theorem getBlockByHeight_pruneHistory {inputs : Set Bytes} {store : StateStore}
    (h : Indexed inputs store) (keepLast height : UInt64) :
    (store.pruneHistory keepLast).1.getBlockByHeight height =
      if height < store.pruneBound keepLast then none else store.getBlockByHeight height := by
  rw [(cleared_pruneHistory h keepLast).blocks height]
  simp only [mem_heightsBelow]

end NoirNet
