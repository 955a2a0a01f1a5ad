import NoirNet.Storage.Effects

/-!
# What each store operation leaves alone

Pruning touches the block store and the height index and nothing else;
re-opening reads back the tree that the last append persisted.
-/

namespace NoirNet.StateStore

open Lib

variable [Blake3]

/-! ## Pruning -/

def SameExceptHistory (db db' : Db) : Prop :=
  ∃ blocks txs heightHash, db' = { db with blocks, txs, heightHash }

omit [Blake3] in
theorem SameExceptHistory.rfl' (db : Db) : SameExceptHistory db db := ⟨_, _, _, rfl⟩

omit [Blake3] in
theorem SameExceptHistory.trans {db db' db'' : Db} (h : SameExceptHistory db db')
    (h' : SameExceptHistory db' db'') : SameExceptHistory db db'' := by
  obtain ⟨_, _, _, rfl⟩ := h
  obtain ⟨_, _, _, rfl⟩ := h'
  exact ⟨_, _, _, rfl⟩

theorem sameExceptHistory_deleteBlock (db : Db) (hash : BlockHash) :
    SameExceptHistory db (db.deleteBlock hash) := by
  unfold Db.deleteBlock
  cases db.getBlock hash with
  | none => exact .rfl' db
  | some block => exact ⟨_, _, _, rfl⟩

theorem sameExceptHistory_pruneHeight (pruned : Db × UInt64) (h : UInt64) :
    SameExceptHistory pruned.1 (pruneHeight pruned h).1 := by
  unfold pruneHeight
  cases pruned.1.heightHash[h]? with
  | none => exact .rfl' _
  | some hash =>
      have hindex : SameExceptHistory pruned.1
          { pruned.1 with heightHash := pruned.1.heightHash.erase h } := ⟨_, _, _, rfl⟩
      exact hindex.trans (sameExceptHistory_deleteBlock _ hash)

theorem sameExceptHistory_pruneHeights (heights : List Nat) (pruned : Db × UInt64) :
    SameExceptHistory pruned.1
      (heights.foldl (fun pruned h => pruneHeight pruned (.ofNat h)) pruned).1 := by
  induction heights generalizing pruned with
  | nil => exact .rfl' _
  | cons h heights ih => exact (sameExceptHistory_pruneHeight pruned (.ofNat h)).trans (ih _)

theorem pruneHistory_fst (store : StateStore) (keepLast : UInt64) :
    ∃ blocks txs heightHash, (store.pruneHistory keepLast).1 =
      { store with db := { store.db with blocks, txs, heightHash } } := by
  unfold pruneHistory
  by_cases hkeep : store.getChainHeight ≤ keepLast
  · rw [if_pos hkeep]
    exact ⟨_, _, _, rfl⟩
  · rw [if_neg hkeep]
    obtain ⟨blocks, txs, heightHash, hdb⟩ := sameExceptHistory_pruneHeights
      (List.range (store.getChainHeight - keepLast).toNat) (store.db, 0)
    exact ⟨blocks, txs, heightHash, congrArg (StateStore.mk · store.tree) hdb⟩

@[simp] theorem pruneHistory_tree (store : StateStore) (keepLast : UInt64) :
    (store.pruneHistory keepLast).1.tree = store.tree := by
  obtain ⟨_, _, _, h⟩ := pruneHistory_fst store keepLast
  rw [h]

@[simp] theorem containsNullifier_pruneHistory (store : StateStore) (keepLast : UInt64)
    (n : Hash32) :
    (store.pruneHistory keepLast).1.containsNullifier n = store.containsNullifier n := by
  obtain ⟨_, _, _, h⟩ := pruneHistory_fst store keepLast
  rw [h]
  rfl

/-! ## Applying -/

theorem applyBlock_of_height_ne {store : StateStore} {block : Block}
    (hheight : block.header.height ≠ store.expectedHeight)
    (changes : Table Bytes Bytes) (contracts : List (Hash32 × Bytes)) :
    store.applyBlock block changes contracts =
      (store, .error (.invalidTransition ("Expected height " ++ toString store.expectedHeight ++
        ", got " ++ toString block.header.height))) := by
  rw [applyBlock, if_pos hheight]

theorem applyBlock_of_height_eq {store : StateStore} {block : Block}
    (hheight : block.header.height = store.expectedHeight)
    (changes : Table Bytes Bytes) (contracts : List (Hash32 × Bytes)) :
    store.applyBlock block changes contracts =
      match store.applyEffects block.header.height block.effects with
      | (store, .error e) => (store, .error e)
      | (store, .ok ()) =>
          ((store.finishBlock block changes contracts).1,
            .ok (store.finishBlock block changes contracts).2) := by
  rw [applyBlock, if_neg (not_not.mpr hheight), applyTransactions_eq]
  rfl

theorem applyBlock_ok_iff {store : StateStore} {block : Block}
    {changes : Table Bytes Bytes} {contracts : List (Hash32 × Bytes)} {root : StateRoot} :
    (store.applyBlock block changes contracts).2 = .ok root ↔
      block.header.height = store.expectedHeight ∧
        (store.applyEffects block.header.height block.effects).2 = .ok () ∧
        (store.applyEffects block.header.height block.effects).1.stateRoot = root := by
  by_cases hheight : block.header.height = store.expectedHeight
  · rw [applyBlock_of_height_eq hheight]
    cases store.applyEffects block.header.height block.effects with
    | mk store' result =>
        cases result with
        | error e => simp
        | ok u => simp [hheight, finishBlock]
  · simp [applyBlock_of_height_ne hheight, hheight]

theorem applyBlock_fst_of_ok {store : StateStore} {block : Block}
    {changes : Table Bytes Bytes} {contracts : List (Hash32 × Bytes)} {root : StateRoot}
    (hok : (store.applyBlock block changes contracts).2 = .ok root) :
    (store.applyBlock block changes contracts).1 =
      ((store.applyEffects block.header.height block.effects).1.finishBlock block changes
        contracts).1 := by
  obtain ⟨hheight, heffects, -⟩ := applyBlock_ok_iff.mp hok
  rw [applyBlock_of_height_eq hheight]
  cases h : store.applyEffects block.header.height block.effects with
  | mk store' result =>
      rw [h] at heffects
      cases result with
      | error e => simp at heffects
      | ok u => rfl

theorem applyBlock_error_iff {store : StateStore} {block : Block}
    {changes : Table Bytes Bytes} {contracts : List (Hash32 × Bytes)} :
    (∃ e, (store.applyBlock block changes contracts).2 = .error e) ↔
      block.header.height ≠ store.expectedHeight ∨ ¬ store.Fresh block.nullifiers := by
  by_cases hheight : block.header.height = store.expectedHeight
  · rw [applyBlock_of_height_eq hheight, ← Block.nullifiers_effects,
      ← applyEffects_ok_iff block.header.height]
    cases store.applyEffects block.header.height block.effects with
    | mk store' result => cases result <;> simp [hheight]
  · simp [applyBlock_of_height_ne hheight, hheight]

theorem applyBlock_doubleSpend_iff {store : StateStore} {block : Block}
    {changes : Table Bytes Bytes} {contracts : List (Hash32 × Bytes)} :
    (store.applyBlock block changes contracts).2 = .error .doubleSpend ↔
      block.header.height = store.expectedHeight ∧ ¬ store.Fresh block.nullifiers := by
  by_cases hheight : block.header.height = store.expectedHeight
  · rw [applyBlock_of_height_eq hheight, ← Block.nullifiers_effects,
      ← applyEffects_ok_iff block.header.height]
    cases heffects : store.applyEffects block.header.height block.effects with
    | mk store' result =>
        cases result with
        | error e =>
            have he : e = .doubleSpend := applyEffects_error (by rw [heffects])
            simp [hheight, he]
        | ok u => simp
  · simp [applyBlock_of_height_ne hheight, hheight]

/-- A rejected block leaves the effects it got to, or none at all. -/
theorem applyBlock_fst_of_error {store : StateStore} {block : Block}
    {changes : Table Bytes Bytes} {contracts : List (Hash32 × Bytes)} {e : StorageError}
    (herror : (store.applyBlock block changes contracts).2 = .error e) :
    (store.applyBlock block changes contracts).1 =
      if block.header.height = store.expectedHeight then
        (store.applyEffects block.header.height block.effects).1
      else store := by
  by_cases hheight : block.header.height = store.expectedHeight
  · rw [applyBlock_of_height_eq hheight] at herror ⊢
    rw [if_pos hheight]
    cases h : store.applyEffects block.header.height block.effects with
    | mk store' result =>
        rw [h] at herror
        cases result with
        | error e => rfl
        | ok u => simp at herror
  · rw [applyBlock_of_height_ne hheight, if_neg hheight]

theorem step_applyBlock_fst (store : StateStore) (block : Block) (changes : Table Bytes Bytes)
    (contracts : List (Hash32 × Bytes)) :
    (storeMachine.step store (.applyBlock block changes contracts)).1 =
      (store.applyBlock block changes contracts).1 := by
  simp only [storeMachine]
  split <;> simp_all

@[simp] theorem containsNullifier_finishBlock (store : StateStore) (block : Block)
    (changes : Table Bytes Bytes) (contracts : List (Hash32 × Bytes)) (n : Hash32) :
    (store.finishBlock block changes contracts).1.containsNullifier n =
      store.containsNullifier n := rfl

@[simp] theorem tree_finishBlock (store : StateStore) (block : Block)
    (changes : Table Bytes Bytes) (contracts : List (Hash32 × Bytes)) :
    (store.finishBlock block changes contracts).1.tree = store.tree := rfl

/-! ## Acceptance -/

omit [Blake3] in
/-- The block is at the expected height and its nullifiers are fresh. -/
def Accepts (store : StateStore) (block : Block) : Prop :=
  block.header.height = store.expectedHeight ∧ store.Fresh block.nullifiers

instance (store : StateStore) (block : Block) : Decidable (store.Accepts block) :=
  inferInstanceAs (Decidable (_ ∧ _))

theorem applyBlock_ok_iff_accepts {store : StateStore} {block : Block}
    {changes : Table Bytes Bytes} {contracts : List (Hash32 × Bytes)} :
    (∃ root, (store.applyBlock block changes contracts).2 = .ok root) ↔ store.Accepts block := by
  simp only [applyBlock_ok_iff, applyEffects_ok_iff, Block.nullifiers_effects, Accepts]
  constructor
  · rintro ⟨root, hheight, hfresh, -⟩
    exact ⟨hheight, hfresh⟩
  · rintro ⟨hheight, hfresh⟩
    exact ⟨_, hheight, hfresh, rfl⟩

theorem applyBlock_cases (store : StateStore) (block : Block) (changes : Table Bytes Bytes)
    (contracts : List (Hash32 × Bytes)) :
    (store.Accepts block ∧ store.applyBlock block changes contracts =
        (((store.applyEffects block.header.height block.effects).1.finishBlock block changes
          contracts).1, .ok (store.applyEffects block.header.height block.effects).1.stateRoot)) ∨
      ¬ store.Accepts block ∧ ∃ e, (store.applyBlock block changes contracts).2 = .error e := by
  cases hresult : (store.applyBlock block changes contracts).2 with
  | ok root =>
      left
      refine ⟨applyBlock_ok_iff_accepts.mp ⟨root, hresult⟩, Prod.ext ?_ ?_⟩
      · exact applyBlock_fst_of_ok hresult
      · rw [hresult, (applyBlock_ok_iff.mp hresult).2.2]
  | error e =>
      right
      refine ⟨?_, e, rfl⟩
      rw [← applyBlock_ok_iff_accepts, hresult]
      simp

theorem containsNullifier_applyBlock {store : StateStore} {block : Block}
    {changes : Table Bytes Bytes} {contracts : List (Hash32 × Bytes)}
    (haccept : store.Accepts block) (n : Hash32) :
    (store.applyBlock block changes contracts).1.containsNullifier n ↔
      n ∈ block.nullifiers ∨ store.containsNullifier n := by
  obtain ⟨root, hok⟩ := applyBlock_ok_iff_accepts.mpr haccept
  rw [applyBlock_fst_of_ok hok, containsNullifier_finishBlock,
    containsNullifier_applyEffects_iff (applyBlock_ok_iff.mp hok).2.1, Block.nullifiers_effects]

/-! ## What the body of a block writes

The fold over the body writes the nullifier set, the commitments and the tree;
whatever comes of a block that is rejected, these are all that can differ. -/

def SameExceptBody (store store' : StateStore) : Prop :=
  ∃ nullifiers commitments treeFrontier treeSize tree, store' =
    { db := { store.db with nullifiers, commitments, treeFrontier, treeSize }, tree }

omit [Blake3] in
theorem SameExceptBody.refl (store : StateStore) : SameExceptBody store store :=
  ⟨_, _, _, _, _, rfl⟩

theorem sameExceptBody_applyEffects (height : UInt64) (store : StateStore)
    (effects : List Effect) : SameExceptBody store (store.applyEffects height effects).1 := by
  apply applyEffects_relation .refl
  · intro store after nullifier hlater
    obtain ⟨_, _, _, _, _, h⟩ := hlater
    exact ⟨_, _, _, _, _, h⟩
  · intro store after commitment hlater
    obtain ⟨_, _, _, _, _, h⟩ := hlater
    exact ⟨_, _, _, _, _, h⟩

theorem sameExceptBody_applyBlock {store : StateStore} {block : Block}
    {changes : Table Bytes Bytes} {contracts : List (Hash32 × Bytes)}
    (hreject : ¬ store.Accepts block) :
    SameExceptBody store (store.applyBlock block changes contracts).1 := by
  obtain ⟨haccept, -⟩ | ⟨-, e, he⟩ := applyBlock_cases store block changes contracts
  · exact absurd haccept hreject
  · rw [applyBlock_fst_of_error he]
    split
    · exact sameExceptBody_applyEffects _ store _
    · exact .refl store

/-! ## The blocks by height -/

omit [Blake3] in
theorem SameExceptBody.getBlockByHeight {store store' : StateStore}
    (h : SameExceptBody store store') (height : UInt64) :
    store'.getBlockByHeight height = store.getBlockByHeight height := by
  obtain ⟨_, _, _, _, _, rfl⟩ := h
  rfl

section

variable {store : StateStore} {block : Block} (haccept : store.Accepts block)
  (changes : Table Bytes Bytes) (contracts : List (Hash32 × Bytes))

include haccept

theorem blocks_applyBlock (hash : BlockHash) :
    (store.applyBlock block changes contracts).1.db.blocks[hash]? =
      if block.blockHash = hash then some block else store.db.blocks[hash]? := by
  obtain ⟨root, hok⟩ := applyBlock_ok_iff_accepts.mpr haccept
  obtain ⟨_, _, _, _, _, hbody⟩ :=
    sameExceptBody_applyEffects block.header.height store block.effects
  rw [applyBlock_fst_of_ok hok, hbody]
  exact Table.get_insert store.db.blocks block.blockHash hash block

theorem heightHash_applyBlock (height : UInt64) :
    (store.applyBlock block changes contracts).1.db.heightHash[height]? =
      if block.header.height = height then some block.blockHash
      else store.db.heightHash[height]? := by
  obtain ⟨root, hok⟩ := applyBlock_ok_iff_accepts.mpr haccept
  obtain ⟨_, _, _, _, _, hbody⟩ :=
    sameExceptBody_applyEffects block.header.height store block.effects
  rw [applyBlock_fst_of_ok hok, hbody]
  exact Table.get_insert store.db.heightHash block.header.height height block.blockHash

theorem txs_applyBlock :
    (store.applyBlock block changes contracts).1.db.txs =
      block.transactions.foldl (fun txs tx => txs.insert tx.txId tx) store.db.txs := by
  obtain ⟨root, hok⟩ := applyBlock_ok_iff_accepts.mpr haccept
  obtain ⟨_, _, _, _, _, hbody⟩ :=
    sameExceptBody_applyEffects block.header.height store block.effects
  rw [applyBlock_fst_of_ok hok, hbody]
  rfl

theorem chainHeight_applyBlock :
    (store.applyBlock block changes contracts).1.db.chainHeight = some block.header.height := by
  obtain ⟨root, hok⟩ := applyBlock_ok_iff_accepts.mpr haccept
  rw [applyBlock_fst_of_ok hok]
  rfl

theorem getBlockByHeight_applyBlock_self :
    (store.applyBlock block changes contracts).1.getBlockByHeight block.header.height =
      some block := by
  rw [StateStore.getBlockByHeight, heightHash_applyBlock haccept, if_pos rfl]
  show (store.applyBlock block changes contracts).1.db.blocks[block.blockHash]? = some block
  rw [blocks_applyBlock haccept, if_pos rfl]

theorem getBlockByHeight_applyBlock {height : UInt64} {found : Block}
    (h : (store.applyBlock block changes contracts).1.getBlockByHeight height = some found) :
    found = block ∨ store.getBlockByHeight height = some found := by
  unfold StateStore.getBlockByHeight Db.getBlock at h ⊢
  simp only [heightHash_applyBlock haccept, blocks_applyBlock haccept] at h
  by_cases hheight : block.header.height = height
  · left
    simpa [hheight, eq_comm] using h
  · rw [if_neg hheight] at h
    cases hindex : store.db.heightHash[height]? with
    | none => simp [hindex] at h
    | some hash =>
        simp only [hindex] at h ⊢
        by_cases hhash : block.blockHash = hash
        · left
          simpa [hhash, eq_comm] using h
        · right
          rwa [if_neg hhash] at h

end

/-! ## Steps of a run -/

theorem step_of_accepts {store : StateStore} {s : Submission} (haccept : store.Accepts s.block) :
    ledgerMachine.step store s =
      (((store.applyEffects s.block.header.height s.block.effects).1.finishBlock s.block
        s.contractStateChanges s.newContracts).1, [s.block]) := by
  obtain ⟨-, h⟩ | ⟨hreject, -⟩ :=
    applyBlock_cases store s.block s.contractStateChanges s.newContracts
  · simp [ledgerMachine, storeMachine, h]
  · exact absurd haccept hreject

theorem step_of_not_accepts {store : StateStore} {s : Submission}
    (hreject : ¬ store.Accepts s.block) :
    (ledgerMachine.step store s).2 = [] ∧ SameExceptBody store (ledgerMachine.step store s).1 := by
  obtain ⟨haccept, -⟩ | ⟨-, e, he⟩ :=
    applyBlock_cases store s.block s.contractStateChanges s.newContracts
  · exact absurd haccept hreject
  · constructor
    · simp only [ledgerMachine, storeMachine]
      split <;> simp_all
    · rw [ledgerMachine_step, step_applyBlock_fst]
      exact sameExceptBody_applyBlock hreject

/-! ## The validators table

Nothing the node does to its store writes to it. -/

@[simp] theorem getAllValidators_pruneHistory (store : StateStore) (keepLast : UInt64) :
    (store.pruneHistory keepLast).1.getAllValidators = store.getAllValidators := by
  obtain ⟨_, _, _, h⟩ := pruneHistory_fst store keepLast
  rw [h]
  rfl

theorem getAllValidators_applyEffects (height : UInt64) (store : StateStore)
    (effects : List Effect) :
    (store.applyEffects height effects).1.getAllValidators = store.getAllValidators := by
  obtain ⟨_, _, _, _, _, h⟩ := sameExceptBody_applyEffects height store effects
  rw [h]
  rfl

@[simp] theorem getAllValidators_applyBlock (store : StateStore) (block : Block)
    (changes : Table Bytes Bytes) (contracts : List (Hash32 × Bytes)) :
    (store.applyBlock block changes contracts).1.getAllValidators = store.getAllValidators := by
  by_cases haccept : store.Accepts block
  · obtain ⟨root, hok⟩ := applyBlock_ok_iff_accepts.mpr haccept
    rw [applyBlock_fst_of_ok hok]
    exact getAllValidators_applyEffects block.header.height store block.effects
  · obtain ⟨_, _, _, _, _, h⟩ := sameExceptBody_applyBlock haccept
    rw [h]
    rfl

omit [Blake3] in
theorem getValidatorSet_congr {store store' : StateStore}
    (h : store'.getAllValidators = store.getAllValidators) (epoch : UInt64) :
    store'.getValidatorSet epoch = store.getValidatorSet epoch := by
  rw [getValidatorSet, h, getValidatorSet]

end NoirNet.StateStore
