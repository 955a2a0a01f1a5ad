import NoirNet.Consensus.Writes
import NoirNet.Lib.Replica

/-!
# How the store and the pool of a node move

Whatever a turn of the loop is about, blocks are executed, the store is pruned, the pool
admits a transaction, and that is all (`evolves_step`).  A block that is stored behind it was
stored before, or executed (`blocks_evolves`).  What decides about a block is the ledger, the
store without its history of blocks: pruned or not, stores of one ledger accept the same
blocks and go on to one ledger (`ledger_applyExecuted`).
-/

namespace NoirNet

open Lib StateStore

/-! ## The ledger of a store -/

namespace StateStore

def ledger (store : StateStore) : StateStore :=
  { store with db := { store.db with blocks := ∅, txs := ∅, heightHash := ∅ } }

@[simp] theorem ledger_ledger (store : StateStore) : store.ledger.ledger = store.ledger := rfl

@[simp] theorem getChainHeight_ledger (store : StateStore) :
    store.ledger.getChainHeight = store.getChainHeight := rfl

@[simp] theorem hasBlocks_ledger (store : StateStore) :
    store.ledger.hasBlocks = store.hasBlocks := rfl

theorem accepts_ledger {store : StateStore} {block : Block} :
    store.ledger.Accepts block ↔ store.Accepts block := Iff.rfl

variable [Blake3]

@[simp] theorem ledger_pruneHistory (store : StateStore) (keepLast : UInt64) :
    (store.pruneHistory keepLast).1.ledger = store.ledger := by
  obtain ⟨_, _, _, h⟩ := pruneHistory_fst store keepLast
  rw [h]
  rfl

theorem ledger_applyEffects (height : UInt64) (store : StateStore) (effects : List Effect) :
    store.ledger.applyEffects height effects =
      ((store.applyEffects height effects).1.ledger, (store.applyEffects height effects).2) := by
  induction effects generalizing store with
  | nil => rfl
  | cons effect effects ih =>
      cases effect with
      | output commitment => exact ih (store.appendCommitment commitment)
      | spend nullifier =>
          have hsame : store.ledger.containsNullifier nullifier =
              store.containsNullifier nullifier := rfl
          rw [applyEffects, applyEffects, hsame]
          by_cases hspent : store.containsNullifier nullifier
          · rw [if_pos hspent, if_pos hspent]
          · rw [if_neg hspent, if_neg hspent]
            exact ih (store.insertNullifier nullifier height)

/-! ### Pruning only forgets -/

theorem getElem?_blocks_deleteBlock {db : Db} {key hash : BlockHash} {block : Block}
    (h : (db.deleteBlock key).blocks[hash]? = some block) : db.blocks[hash]? = some block := by
  unfold Db.deleteBlock at h
  cases hfound : db.getBlock key with
  | none =>
      rw [hfound] at h
      exact h
  | some found =>
      simp only [hfound, Table.get_erase] at h
      split at h
      · cases h
      · exact h

theorem getElem?_blocks_pruneHeight {pruned : Db × UInt64} {height : UInt64} {hash : BlockHash}
    {block : Block} (h : (pruneHeight pruned height).1.blocks[hash]? = some block) :
    pruned.1.blocks[hash]? = some block := by
  unfold pruneHeight at h
  cases hindex : pruned.1.heightHash[height]? with
  | none =>
      rw [hindex] at h
      exact h
  | some key =>
      rw [hindex] at h
      have hkept := getElem?_blocks_deleteBlock h
      exact hkept

theorem getElem?_blocks_pruneHistory {store : StateStore} {keepLast : UInt64}
    {hash : BlockHash} {block : Block}
    (h : (store.pruneHistory keepLast).1.db.blocks[hash]? = some block) :
    store.db.blocks[hash]? = some block := by
  have hheights (heights : List Nat) (pruned : Db × UInt64)
      (hget : (heights.foldl (fun pruned h => pruneHeight pruned (.ofNat h))
        pruned).1.blocks[hash]? = some block) : pruned.1.blocks[hash]? = some block := by
    induction heights generalizing pruned with
    | nil => exact hget
    | cons height heights ih => exact getElem?_blocks_pruneHeight (ih _ hget)
  unfold pruneHistory at h
  by_cases hkeep : store.getChainHeight ≤ keepLast
  · rw [if_pos hkeep] at h
    exact h
  · rw [if_neg hkeep] at h
    exact hheights _ _ h

end StateStore

/-- What an accepted block makes of a store is, up to the history, what it makes of the
ledger. -/
theorem ledger_applyExecuted [Blake3] (vm : WasmRuntime) {store : StateStore} {block : Block}
    (haccept : store.Accepts block) :
    (applyExecuted vm store.ledger block).1.ledger = (applyExecuted vm store block).1.ledger := by
  obtain ⟨_, hok⟩ := applyBlock_ok_iff_accepts.mpr haccept
  obtain ⟨_, hok'⟩ := applyBlock_ok_iff_accepts.mpr (accepts_ledger.mpr haccept)
  rw [applyExecuted, applyExecuted, applyBlock_fst_of_ok hok', applyBlock_fst_of_ok hok,
    ledger_applyEffects]
  rfl

/-! ## Executing and pruning -/

section

variable [Blake3] [Nova]

/-- A store and a pool, executed on block by block; in between the store is pruned and the
pool admits transactions. -/
inductive Evolves (vm : WasmRuntime) (isValidator : Bool) (s : StateStore × PrivateMempool) :
    List (Block × BlockOutcome) → StateStore × PrivateMempool → Prop
  | refl : Evolves vm isValidator s [] s
  | execute {os : List (Block × BlockOutcome)} {store : StateStore} {pool : PrivateMempool}
      (h : Evolves vm isValidator s os (store, pool)) (now : UInt64) (block : Block) :
      Evolves vm isValidator s
        (os ++ [(block, (executeAndApplyBlock vm isValidator now store pool block).2.2)])
        ((executeAndApplyBlock vm isValidator now store pool block).1,
          (executeAndApplyBlock vm isValidator now store pool block).2.1)
  | prune {os : List (Block × BlockOutcome)} {store : StateStore} {pool : PrivateMempool}
      (h : Evolves vm isValidator s os (store, pool)) (keepLast : UInt64) :
      Evolves vm isValidator s os ((store.pruneHistory keepLast).1, pool)
  | insert {os : List (Block × BlockOutcome)} {store : StateStore} {pool pool' : PrivateMempool}
      (h : Evolves vm isValidator s os (store, pool)) {tx : Transaction}
      (hinsert : pool.insert store tx = .ok pool') : Evolves vm isValidator s os (store, pool')

variable {vm : WasmRuntime} {isValidator : Bool}

theorem Evolves.trans {a b c : StateStore × PrivateMempool} {os os' : List (Block × BlockOutcome)}
    (h : Evolves vm isValidator a os b) (h' : Evolves vm isValidator b os' c) :
    Evolves vm isValidator a (os ++ os') c := by
  induction h' with
  | refl =>
      rw [List.append_nil]
      exact h
  | execute _ now block ih =>
      rw [← List.append_assoc]
      exact ih.execute now block
  | prune _ keepLast ih => exact ih.prune keepLast
  | insert _ hinsert ih => exact ih.insert hinsert

theorem outcome_evolves {s s' : StateStore × PrivateMempool} {os : List (Block × BlockOutcome)}
    (hevolves : Evolves vm isValidator s os s') {o : Block × BlockOutcome} (ho : o ∈ os) :
    ∃ now store pool, o.2 = (executeAndApplyBlock vm isValidator now store pool o.1).2.2 := by
  induction hevolves with
  | refl => cases ho
  | execute _ now block ih =>
      rcases List.mem_append.mp ho with hold | hlast
      · exact ih hold
      · rw [List.mem_singleton.mp hlast]
        exact ⟨now, _, _, rfl⟩
  | prune _ keepLast ih => exact ih ho
  | insert _ _ ih => exact ih ho

theorem blocks_execute {now : UInt64} {store : StateStore} {pool : PrivateMempool}
    {block : Block} {hash : BlockHash} {b : Block}
    (h : (executeAndApplyBlock vm isValidator now store pool block).1.db.blocks[hash]? = some b) :
    b = block ∨ store.db.blocks[hash]? = some b := by
  by_cases hpass : Passes isValidator now block
  · by_cases haccept : store.Accepts block
    · have hstore : (executeAndApplyBlock vm isValidator now store pool block).1 =
          (applyExecuted vm store block).1 := by
        rw [execute_of_accepts vm pool hpass haccept]
        split <;> rfl
      rw [hstore, applyExecuted, blocks_applyBlock haccept] at h
      split at h
      · exact .inl (Option.some.inj h).symm
      · exact .inr h
    · have hsame : store.SameExceptBody (applyExecuted vm store block).1 :=
        sameExceptBody_applyBlock haccept
      obtain ⟨e, he⟩ := execute_of_not_accepts vm pool hpass haccept
      obtain ⟨_, _, _, _, _, hbody⟩ := hsame
      rw [he, hbody] at h
      exact .inr h
  · obtain ⟨reason, hreason⟩ := execute_of_not_passes vm pool store hpass
    rw [hreason] at h
    exact .inr h

/-- What is stored was stored before, or is among the blocks that were executed. -/
theorem blocks_evolves {s s' : StateStore × PrivateMempool} {os : List (Block × BlockOutcome)}
    (hevolves : Evolves vm isValidator s os s') {hash : BlockHash} {b : Block}
    (h : s'.1.db.blocks[hash]? = some b) :
    (∃ o ∈ os, o.1 = b) ∨ s.1.db.blocks[hash]? = some b := by
  induction hevolves with
  | refl => exact .inr h
  | execute _ now block ih =>
      rcases blocks_execute h with rfl | hbefore
      · exact .inl ⟨_, List.mem_append_right _ (List.mem_singleton_self _), rfl⟩
      · rcases ih hbefore with ⟨o, ho, hb⟩ | hold
        · exact .inl ⟨o, List.mem_append_left _ ho, hb⟩
        · exact .inr hold
  | prune _ keepLast ih => exact ih (getElem?_blocks_pruneHistory h)
  | insert _ _ ih => exact ih h

variable [Bls]

namespace ConsensusEngine

def holdings (engine : ConsensusEngine) : StateStore × PrivateMempool :=
  (engine.stateStore, engine.mempool)

theorem mem_syncOutcomes {env : Env} {height : UInt64} {engine : ConsensusEngine} {k : Nat}
    {blocks : List Block} {o : Block × BlockOutcome}
    (ho : o ∈ syncOutcomes env height engine k blocks) :
    o.1 ∈ blocks ∧ o.1.header.height ≥ height := by
  induction blocks generalizing engine k with
  | nil => cases ho
  | cons block blocks ih =>
      rw [syncOutcomes] at ho
      by_cases hheight : block.header.height ≥ height
      · rw [if_pos hheight] at ho
        rcases List.mem_cons.mp ho with rfl | ho
        · exact ⟨List.mem_cons_self, hheight⟩
        · exact ⟨List.mem_cons_of_mem block (ih ho).1, (ih ho).2⟩
      · rw [if_neg hheight] at ho
        exact ⟨List.mem_cons_of_mem block (ih ho).1, (ih ho).2⟩

theorem evolves_execute (engine : ConsensusEngine) (now : UInt64) (block : Block) :
    Evolves vm engine.isValidator engine.holdings [(block, engine.outcome vm now block)]
      (engine.execute vm now block).1.holdings :=
  Evolves.refl.execute now block

theorem evolves_executeSynced (env : Env) (height : UInt64) (engine : ConsensusEngine) (k : Nat)
    (blocks : List Block) :
    Evolves env.vm engine.isValidator engine.holdings (syncOutcomes env height engine k blocks)
      (executeSynced env height engine k blocks).1.holdings := by
  induction blocks generalizing engine k with
  | nil => exact .refl
  | cons block blocks ih =>
      rw [executeSynced, syncOutcomes]
      by_cases hheight : block.header.height ≥ height
      · rw [if_pos hheight, if_pos hheight]
        have hrest := ih (engine.execute env.vm (env.now k) block).1 (k + 1)
        exact (engine.evolves_execute (env.now k) block).trans hrest
      · rw [if_neg hheight, if_neg hheight]
        exact ih engine k

end ConsensusEngine

namespace LoopState

theorem holdings_step_syncResponse (state : LoopState) (env : Env) (peer : PeerId)
    (res : SyncResponse) :
    (state.step { env, event := .syncResponse peer res }).1.engine.holdings =
      if state.engine.syncManager.isSyncing then
        (ConsensusEngine.executeSynced env state.height state.engine 0 res.blocks).1.holdings
      else state.engine.holdings := by
  simp only [step, turn, onSyncResponse]
  by_cases hsyncing : state.engine.syncManager.isSyncing
  · simp only [hsyncing, if_true]
    generalize ConsensusEngine.executeSynced env state.height state.engine 0 res.blocks = synced
    by_cases hstill : (synced.1.syncManager.checkSyncStatus
        synced.1.stateStore.getChainHeight).2
    · simp only [hstill, if_true]
      cases (synced.1.syncManager.checkSyncStatus
        synced.1.stateStore.getChainHeight).1.currentRequest with
      | none => rfl
      | some request => rfl
    · simp only [hstill, if_false, Bool.false_eq_true]
      rfl
  · simp only [hsyncing, if_false, Bool.false_eq_true]

/-- A step executes the blocks it logs; beside that it prunes or admits at most. -/
theorem evolves_step (state : LoopState) (input : Input) :
    Evolves input.env.vm state.engine.isValidator state.engine.holdings
      (Action.outcomes (state.step input).2) (state.step input).1.engine.holdings := by
  rw [state.outcomes_step input]
  obtain ⟨env, event⟩ := input
  cases event with
  | block block =>
      have hsame : (state.step { env, event := .block block }).1.engine.holdings =
          state.engine.holdings := by
        show (state.onBlock env block).1.engine.holdings = _
        simp only [onBlock]
        by_cases hadmits : state.admits env.randomPeer block
        · simp only [hadmits, if_true, vote_fst]
          rfl
        · simp only [hadmits, if_false, Bool.false_eq_true]
          rfl
      rw [hsame]
      exact .refl
  | vote vote =>
      by_cases hdecides : state.decides vote
      · obtain ⟨hcounts, hphase⟩ := decides_iff.mp hdecides
        simp only [hdecides, if_true]
        obtain ⟨hstay, hnone⟩ | ⟨block, -, -, hblock, henter⟩ := state.step_fst_vote env vote
        · rw [hstay, hnone hcounts hphase]
          exact .refl
        · rw [henter, hblock]
          exact state.engine.evolves_execute (env.now 0) block
      · simp only [hdecides, if_false, Bool.false_eq_true]
        obtain ⟨hstay, -⟩ | ⟨block, hcounts, hphase, -, -⟩ := state.step_fst_vote env vote
        · rw [hstay]
          exact .refl
        · exact absurd (decides_iff.mpr ⟨hcounts, hphase⟩) hdecides
  | syncResponse peer res =>
      rw [state.holdings_step_syncResponse]
      by_cases hsyncing : state.engine.syncManager.isSyncing
      · simp only [hsyncing, if_true]
        exact state.engine.evolves_executeSynced env state.height 0 res.blocks
      · simp only [hsyncing, if_false, Bool.false_eq_true]
        exact .refl
  | pruneHistory keepLast => exact Evolves.refl.prune keepLast
  | mempoolInsert tx =>
      simp only [step, turn]
      cases hinsert : state.engine.mempool.insert state.engine.stateStore tx with
      | ok pool => exact Evolves.refl.insert hinsert
      | error e => exact .refl
  | syncRequest peer req => exact .refl
  | timeout => exact .refl

end LoopState

end

end NoirNet
