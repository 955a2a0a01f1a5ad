import NoirNet.Proofs.Replay
import NoirNet.Proofs.Retention

/-!
# The transactions of the retained blocks

All blocks share one index of transactions, and a block that is pruned takes the
entries of its transactions along.  A nullifier is spent in one block only, so
it is the transactions without spends that can be in two blocks.

* `TxIndex`: the invariant, blocks at two heights share no nullifier;
* `transactions_pruneHistory_iff`: one call of `prune_history`;
* `retained_transactions_iff`: the run.
-/

namespace NoirNet

open Lib StateStore

variable [Blake3]

/-- Every transaction of a block that is found by its height is found by its id. -/
def KeepsTransactions (store : StateStore) : Prop :=
  ∀ height block, store.getBlockByHeight height = some block →
    ∀ tx ∈ block.transactions, store.db.getTransaction tx.txId = some tx

omit [Blake3] in
/-- No transaction without spends is both in a block that is pruned and in one that stays. -/
def SparesTransactions (store : StateStore) : StoreOp → Prop
  | .pruneHistory keepLast => ∀ low high old block, low < store.pruneBound keepLast →
      ¬ high < store.pruneBound keepLast → store.getBlockByHeight low = some old →
      store.getBlockByHeight high = some block →
      ∀ tx ∈ old.transactions, tx.isBare → tx ∉ block.transactions
  | .applyBlock _ _ _ => True
  | .reopen => True

def SubmitsFrom (headers txs : Set Bytes) (op : StoreOp) : Prop :=
  ∀ block, op.submitted = some block →
    block.header.serialize ∈ headers ∧ ∀ tx ∈ block.transactions, Identified txs tx

structure TxIndex (headers txs : Set Bytes) (store : StateStore) : Prop where
  indexed : Indexed headers store
  identified : ∀ height block, store.getBlockByHeight height = some block →
    ∀ tx ∈ block.transactions, Identified txs tx
  spent : ∀ height block, store.getBlockByHeight height = some block →
    ∀ n ∈ block.nullifiers, store.containsNullifier n
  disjoint : ∀ height height' block block', height ≠ height' →
    store.getBlockByHeight height = some block → store.getBlockByHeight height' = some block' →
    ∀ n ∈ block.nullifiers, n ∉ block'.nullifiers
  keeps : KeepsTransactions store

theorem txIndex_empty (headers txs : Set Bytes) : TxIndex headers txs StateStore.empty where
  indexed := indexed_empty headers
  identified _ _ h := nomatch h
  spent _ _ h := nomatch h
  disjoint _ _ _ _ _ h := nomatch h
  keeps _ _ h := nomatch h

section

variable {headers txs : Set Bytes} {store : StateStore} (h : TxIndex headers txs store)

include h

theorem TxIndex.congr {store' : StateStore} (hsame : SameExceptBody store store')
    (hspent : ∀ n, store.containsNullifier n → store'.containsNullifier n) :
    TxIndex headers txs store' := by
  have hget (height : UInt64) := hsame.getBlockByHeight height
  constructor
  · exact hsame.indexed h.indexed
  · intro height block hblock
    exact h.identified height block (hget height ▸ hblock)
  · intro height block hblock n hn
    exact hspent n (h.spent height block (hget height ▸ hblock) n hn)
  · intro height height' block block' hne hblock hblock'
    exact h.disjoint height height' block block' hne (hget height ▸ hblock) (hget height' ▸ hblock')
  · intro height block hblock tx htx
    have hold := h.keeps height block (hget height ▸ hblock) tx htx
    obtain ⟨_, _, _, _, _, rfl⟩ := hsame
    exact hold

/-! ## An accepted block -/

section

variable (hheaders : Blake3.CollisionFree headers) (htxs : Blake3.CollisionFree txs)
  {block : Block} (hheader : block.header.serialize ∈ headers)
  (hbody : ∀ tx ∈ block.transactions, Identified txs tx) (haccept : store.Accepts block)
  (changes : Table Bytes Bytes) (contracts : List (Hash32 × Bytes))

omit h in
include hbody htxs haccept in
theorem getTransaction_applyBlock {tx : Transaction} (htx : Identified txs tx)
    (hmem : tx ∈ block.transactions ∨ store.db.getTransaction tx.txId = some tx) :
    (store.applyBlock block changes contracts).1.db.getTransaction tx.txId = some tx := by
  rw [Db.getTransaction, txs_applyBlock haccept]
  by_cases hid : tx.txId ∈ block.transactions.map Transaction.txId
  · apply Table.get_foldl_insert_of_mem _ hid
    intro tx' htx' hsame
    exact (hbody tx' htx').eq_of_txId_eq htxs htx hsame
  · rw [Table.get_foldl_insert_of_notMem _ _ hid]
    exact hmem.resolve_left fun hin => hid (List.mem_map_of_mem hin)

include hheaders htxs hheader hbody haccept in
theorem TxIndex.apply : TxIndex headers txs (store.applyBlock block changes contracts).1 := by
  have hget := getBlockByHeight_of_accepts hheaders h.indexed hheader haccept changes contracts
  have hnew {height : UInt64} {found : Block}
      (hfound : (store.applyBlock block changes contracts).1.getBlockByHeight height = some found) :
      (height = block.header.height ∧ found = block) ∨
        (height ≠ block.header.height ∧ store.getBlockByHeight height = some found) := by
    rw [hget] at hfound
    by_cases heq : block.header.height = height
    · rw [if_pos heq] at hfound
      exact .inl ⟨heq.symm, (Option.some.inj hfound).symm⟩
    · rw [if_neg heq] at hfound
      exact .inr ⟨Ne.symm heq, hfound⟩
  have hspent (n : Hash32) : (store.applyBlock block changes contracts).1.containsNullifier n ↔
      n ∈ block.nullifiers ∨ store.containsNullifier n := containsNullifier_applyBlock haccept n
  constructor
  · exact indexed_applyBlock hheaders h.indexed hheader haccept changes contracts
  · intro height found hfound
    obtain ⟨-, rfl⟩ | ⟨-, hold⟩ := hnew hfound
    · exact hbody
    · exact h.identified height found hold
  · intro height found hfound n hn
    rw [hspent]
    obtain ⟨-, rfl⟩ | ⟨-, hold⟩ := hnew hfound
    · exact .inl hn
    · exact .inr (h.spent height found hold n hn)
  · intro height height' found found' hne hfound hfound' n hn hn'
    obtain ⟨rfl, rfl⟩ | ⟨-, hold⟩ := hnew hfound <;>
      obtain ⟨rfl, rfl⟩ | ⟨-, hold'⟩ := hnew hfound'
    · exact hne rfl
    · exact haccept.2.2 n hn (h.spent height' found' hold' n hn')
    · exact haccept.2.2 n hn' (h.spent height found hold n hn)
    · exact h.disjoint height height' found found' hne hold hold' n hn hn'
  · intro height found hfound tx htx
    obtain ⟨-, rfl⟩ | ⟨-, hold⟩ := hnew hfound
    · exact getTransaction_applyBlock htxs hbody haccept changes contracts (hbody tx htx)
        (.inl htx)
    · exact getTransaction_applyBlock htxs hbody haccept changes contracts
        (h.identified height found hold tx htx) (.inr (h.keeps height found hold tx htx))

end

/-! ## Pruning -/

/-- A transaction that a pruned block shares with a retained one has no spends. -/
theorem TxIndex.bare_of_shared {low high : UInt64} {old block : Block} {tx : Transaction}
    (hne : low ≠ high) (hold : store.getBlockByHeight low = some old)
    (hblock : store.getBlockByHeight high = some block)
    (htx : tx ∈ old.transactions) (htx' : tx ∈ block.transactions) : tx.isBare := by
  cases hspends : tx.spends with
  | nil => simp [Transaction.isBare, hspends]
  | cons spend spends =>
      have hspend : spend.nullifier ∈ tx.spends.map (·.nullifier) := by simp [hspends]
      have hn : spend.nullifier ∈ old.nullifiers := List.mem_flatMap.mpr ⟨tx, htx, hspend⟩
      have hn' : spend.nullifier ∈ block.nullifiers := List.mem_flatMap.mpr ⟨tx, htx', hspend⟩
      exact absurd hn' (h.disjoint low high old block hne hold hblock _ hn)

variable (htxs : Blake3.CollisionFree txs) (keepLast : UInt64)

include htxs in
/-- A call of `prune_history` keeps the transactions of the retained blocks exactly when
the pruned ones do not have them too. -/
theorem transactions_pruneHistory_iff :
    KeepsTransactions (store.pruneHistory keepLast).1 ↔
      SparesTransactions store (.pruneHistory keepLast) := by
  have hcleared := cleared_pruneHistory h.indexed keepLast
  have hget := getBlockByHeight_pruneHistory h.indexed keepLast
  constructor
  · intro hkeeps low high old block hlow hhigh hold hblock tx htx _ htx'
    have hstays : (store.pruneHistory keepLast).1.getBlockByHeight high = some block := by
      rw [hget, if_neg hhigh, hblock]
    have hfound := hkeeps high block hstays tx htx'
    have hgone := hcleared.gone tx.txId
      ⟨low, mem_heightsBelow.mpr hlow, old, hold, List.mem_map_of_mem htx⟩
    rw [Db.getTransaction, hgone] at hfound
    cases hfound
  · intro hspares high block hstays tx htx
    rw [hget] at hstays
    by_cases hhigh : high < store.pruneBound keepLast
    · rw [if_pos hhigh] at hstays
      cases hstays
    rw [if_neg hhigh] at hstays
    have hkept : ¬ HoldsTx store
        ((List.range (store.pruneBound keepLast).toNat).map UInt64.ofNat) tx.txId := by
      rintro ⟨low, hlow, old, hold, hid⟩
      rw [mem_heightsBelow] at hlow
      obtain ⟨tx', htx', hid'⟩ := List.mem_map.mp hid
      have hsame : tx' = tx := (h.identified low old hold tx' htx').eq_of_txId_eq htxs
        (h.identified high block hstays tx htx) hid'
      subst hsame
      have hne : low ≠ high := by
        rintro rfl
        exact hhigh hlow
      have hbare := h.bare_of_shared hne hold hstays htx' htx
      exact hspares low high old block hlow hhigh hold hstays tx' htx' hbare htx
    rw [Db.getTransaction, hcleared.kept tx.txId hkept]
    exact h.keeps high block hstays tx htx

include htxs in
theorem TxIndex.prune (hspares : SparesTransactions store (.pruneHistory keepLast)) :
    TxIndex headers txs (store.pruneHistory keepLast).1 := by
  have hget := getBlockByHeight_pruneHistory h.indexed keepLast
  have hold {height : UInt64} {block : Block}
      (hblock : (store.pruneHistory keepLast).1.getBlockByHeight height = some block) :
      store.getBlockByHeight height = some block := by
    rw [hget] at hblock
    by_cases hlow : height < store.pruneBound keepLast
    · rw [if_pos hlow] at hblock
      cases hblock
    · rwa [if_neg hlow] at hblock
  constructor
  · exact (cleared_pruneHistory h.indexed keepLast).indexed
  · intro height block hblock
    exact h.identified height block (hold hblock)
  · intro height block hblock n hn
    rw [containsNullifier_pruneHistory]
    exact h.spent height block (hold hblock) n hn
  · intro height height' block block' hne hblock hblock'
    exact h.disjoint height height' block block' hne (hold hblock) (hold hblock')
  · exact (transactions_pruneHistory_iff h htxs keepLast).mpr hspares

end

/-! ## One operation, and a run -/

section

variable {headers txs : Set Bytes} (hheaders : Blake3.CollisionFree headers)
  (htxs : Blake3.CollisionFree txs) {store : StateStore} {op : StoreOp}
  (hop : SubmitsFrom headers txs op) (h : TxIndex headers txs store)

include hheaders htxs hop h

theorem TxIndex.step (hspares : SparesTransactions store op) :
    TxIndex headers txs (storeMachine.step store op).1 := by
  cases op with
  | applyBlock block changes contracts =>
      obtain ⟨hheader, hbody⟩ := hop block rfl
      by_cases haccept : store.Accepts block
      · rw [step_applyBlock_of_accepts haccept]
        exact h.apply hheaders htxs hheader hbody haccept changes contracts
      · exact h.congr (step_applyBlock_of_not_accepts haccept changes contracts).2
          fun n hn => containsNullifier_step hn _
  | pruneHistory keepLast => exact h.prune htxs keepLast hspares
  | reopen => exact ⟨h.indexed, h.identified, h.spent, h.disjoint, h.keeps⟩

theorem keepsTransactions_step_iff :
    KeepsTransactions (storeMachine.step store op).1 ↔ SparesTransactions store op := by
  constructor
  · intro hkeeps
    cases op with
    | applyBlock block changes contracts => trivial
    | pruneHistory keepLast => exact (transactions_pruneHistory_iff h htxs keepLast).mp hkeeps
    | reopen => trivial
  · intro hspares
    exact (h.step hheaders htxs hop hspares).keeps

end

def submittedTransactions (ops : List StoreOp) : Set Bytes :=
  {bytes | ∃ op ∈ ops, ∃ block, op.submitted = some block ∧
    ∃ tx ∈ block.transactions, bytes = tx.serialize}

/-- In every state of a run from an empty store the transactions of the stored blocks are
found by their ids exactly when no call of `prune_history` removes a block that shares a
transaction without spends with one that stays. -/
theorem retained_transactions_iff (ops : List StoreOp)
    (hformat : ∀ op ∈ ops, ∀ block, op.submitted = some block →
      ∀ tx ∈ block.transactions, tx.validateFormat = .ok ())
    (hheaders : Blake3.CollisionFree (submittedHeaders ops))
    (htxs : Blake3.CollisionFree (submittedTransactions ops)) :
    (∀ front, front <+: ops → KeepsTransactions (storeMachine.final StateStore.empty front)) ↔
      storeMachine.Admissible SparesTransactions StateStore.empty ops := by
  have hlegal : storeMachine.Admissible
      (fun _ op => SubmitsFrom (submittedHeaders ops) (submittedTransactions ops) op)
      StateStore.empty ops := by
    apply storeMachine.admissible_of_forall
    intro op hop _ block hblock
    refine ⟨⟨op, hop, block, hblock, rfl⟩, fun tx htx => ?_⟩
    exact ⟨hformat op hop block hblock tx htx, op, hop, block, hblock, tx, htx, rfl⟩
  apply storeMachine.forall_prefix_iff (TxIndex (submittedHeaders ops) (submittedTransactions ops))
    KeepsTransactions _ _ (txIndex_empty _ _)
    (txIndex_empty ∅ ∅).keeps hlegal
  · intro store op hop h hspares
    exact h.step hheaders htxs hop hspares
  · intro store op hop h
    exact keepsTransactions_step_iff hheaders htxs hop h

/-! ## A deployment that is pruned and retained -/

def pruneFirst (old new : Transaction) : List StoreOp :=
  [.applyBlock (Block.blank 0 (fill 32 0) [old]) ∅ [],
    .applyBlock (Block.blank 1 (fill 32 0) [new]) ∅ [], .pruneHistory 0]

omit [Blake3] in
theorem validateFormat_pruneFirst {old new : Transaction} (hold : old.validateFormat = .ok ())
    (hnew : new.validateFormat = .ok ()) :
    ∀ op ∈ pruneFirst old new, ∀ block, op.submitted = some block →
      ∀ tx ∈ block.transactions, tx.validateFormat = .ok () := by
  intro op hop block hblock tx htx
  simp only [pruneFirst, List.mem_cons, List.not_mem_nil, or_false] at hop
  obtain rfl | rfl | rfl := hop <;> cases hblock
  · cases List.mem_singleton.mp htx
    exact hold
  · cases List.mem_singleton.mp htx
    exact hnew

omit [Blake3] in
theorem shared_deployment_lost :
    letI := Blake3.sum
    (∀ op ∈ pruneFirst deployment deployment, ∀ block, op.submitted = some block →
        ∀ tx ∈ block.transactions, tx.validateFormat = .ok ()) ∧
      ¬ KeepsTransactions
        (storeMachine.final StateStore.empty (pruneFirst deployment deployment)) := by
  let _ := Blake3.sum
  refine ⟨validateFormat_pruneFirst (by decide +kernel) (by decide +kernel), fun hkeeps => ?_⟩
  have hstays : (storeMachine.final StateStore.empty
      (pruneFirst deployment deployment)).getBlockByHeight 1 =
        some (Block.blank 1 (fill 32 0) [deployment]) := by decide +kernel
  have hgone : (storeMachine.final StateStore.empty
      (pruneFirst deployment deployment)).db.getTransaction deployment.txId = none := by
    decide +kernel
  have hfound := hkeeps 1 _ hstays deployment (List.mem_singleton_self _)
  rw [hgone] at hfound
  cases hfound

omit [Blake3] in
theorem distinct_transactions_kept :
    letI := Blake3.sum
    (∀ front, front <+: pruneFirst spending deployment →
        KeepsTransactions (storeMachine.final StateStore.empty front)) ↔
      storeMachine.Admissible SparesTransactions StateStore.empty
        (pruneFirst spending deployment) := by
  let _ := Blake3.sum
  have hheaders : Blake3.CollisionFree {bytes | bytes ∈
      [(Block.blank 0 (fill 32 0) [spending]).header.serialize,
        (Block.blank 1 (fill 32 0) [deployment]).header.serialize]} :=
    Blake3.collisionFree_of_nodup (by decide +kernel)
  have htxs : Blake3.CollisionFree
      {bytes | bytes ∈ [spending, deployment].map Transaction.serialize} :=
    Blake3.collisionFree_of_nodup (by decide +kernel)
  apply retained_transactions_iff
  · exact validateFormat_pruneFirst (by decide +kernel) (by decide +kernel)
  · apply hheaders.mono
    rintro bytes ⟨op, hop, block, hblock, rfl⟩
    simp only [pruneFirst, List.mem_cons, List.not_mem_nil, or_false] at hop
    obtain rfl | rfl | rfl := hop <;> cases hblock <;> simp
  · apply htxs.mono
    rintro bytes ⟨op, hop, block, hblock, tx, htx, rfl⟩
    simp only [pruneFirst, List.mem_cons, List.not_mem_nil, or_false] at hop
    obtain rfl | rfl | rfl := hop <;> cases hblock <;> cases List.mem_singleton.mp htx <;> simp

end NoirNet
