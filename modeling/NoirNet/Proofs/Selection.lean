import Mathlib.Data.List.Infix
import NoirNet.Concrete
import NoirNet.Identifiers
import NoirNet.Mempool
import NoirNet.Storage.Frame

/-!
# What the mempool selects

Every pooled transaction reserves its nullifiers, so no two of them share one,
and none is spent when it is admitted.  A committed block is what can break
this: `remove_mined` takes out the block's own transactions and nothing else.

* `insert_ok_iff`, `get_removeMined`: what the two operations do;
* `Consistent.insert`, `Consistent.commit`: the invariant and its steps;
* `selection_fresh_iff`: the run.
-/

namespace NoirNet

open Lib StateStore

abbrev Transaction.nullifiers (tx : Transaction) : List Hash32 := tx.spends.map (·.nullifier)

namespace PrivateMempool

/-! ## Admission -/

theorem checkNullifiers_ok_iff {pool : PrivateMempool} {state : StateStore}
    {spends : List SpendDescription} :
    pool.checkNullifiers state spends = .ok () ↔
      ∀ n ∈ spends.map (·.nullifier), ¬ state.containsNullifier n ∧
        ¬ pool.pendingNullifiers.contains n := by
  induction spends with
  | nil => simp [checkNullifiers]
  | cons spend spends ih =>
      rw [checkNullifiers, List.map_cons, List.forall_mem_cons, ← ih]
      by_cases hspent : state.containsNullifier spend.nullifier
      · simp [hspent]
      · by_cases hpending : pool.pendingNullifiers.contains spend.nullifier
        · simp [hspent, hpending]
        · simp [hspent, hpending]

def inserted [Blake3] (pool : PrivateMempool) (tx : Transaction) : PrivateMempool where
  txs := pool.txs.insert tx.txId tx
  pendingNullifiers := tx.spends.foldl
    (fun pending spend => pending.insert spend.nullifier tx.txId) pool.pendingNullifiers

variable [Blake3]

theorem insert_ok_iff {pool pool' : PrivateMempool} {state : StateStore} {tx : Transaction} :
    pool.insert state tx = .ok pool' ↔
      pool.txs.size < MAX_MEMPOOL_SIZE ∧ pool.txs[tx.txId]? = none ∧ tx.validateFormat = .ok () ∧
      MIN_FEE ≤ tx.fee ∧
      (∀ n ∈ tx.nullifiers, ¬ state.containsNullifier n ∧ ¬ pool.pendingNullifiers.contains n) ∧
      pool' = pool.inserted tx := by
  have hcontains : pool.txs.contains tx.txId = true ↔ pool.txs[tx.txId]? ≠ none := by
    rw [Std.ExtTreeMap.contains_eq_isSome_getElem?, Option.isSome_iff_ne_none]
  rw [← checkNullifiers_ok_iff]
  unfold insert
  simp only [↓ite_throw_eq_ok, hcontains, ge_iff_le, not_le, ne_eq, not_not]
  cases hformat : tx.validateFormat with
  | error e => simp [throw, throwThe, MonadExceptOf.throw, bind, Except.bind]
  | ok u =>
      simp only [↓ite_throw_eq_ok, UInt64.not_lt]
      cases hcheck : pool.checkNullifiers state tx.spends with
      | error e => simp [bind, Except.bind]
      | ok u => simp [bind, Except.bind, pure, Except.pure, inserted, eq_comm]

theorem get_inserted (pool : PrivateMempool) (tx : Transaction) (id : TxId) :
    (pool.inserted tx).txs[id]? = if tx.txId = id then some tx else pool.txs[id]? :=
  Table.get_insert pool.txs tx.txId id tx

theorem pending_inserted {pool : PrivateMempool} {tx : Transaction} {n : Hash32} :
    (pool.inserted tx).pendingNullifiers.contains n ↔
      n ∈ tx.nullifiers ∨ pool.pendingNullifiers.contains n := by
  simp only [Std.ExtTreeMap.contains_eq_isSome_getElem?]
  exact Table.isSome_foldl_insert _ _ tx.spends pool.pendingNullifiers n

/-! ## Removal -/

theorem get_removeMined (pool : PrivateMempool) (txs : List Transaction) (id : TxId) :
    (pool.removeMined txs).txs[id]? =
      if id ∈ txs.map Transaction.txId then none else pool.txs[id]? := by
  unfold removeMined
  induction txs generalizing pool with
  | nil => simp
  | cons tx txs ih =>
      rw [List.foldl_cons, ih, Table.get_erase, List.map_cons]
      by_cases h : tx.txId = id
      · simp [h]
      · simp [h, Ne.symm h]

theorem pending_removeMined {pool : PrivateMempool} {txs : List Transaction} {n : Hash32} :
    (pool.removeMined txs).pendingNullifiers.contains n ↔
      n ∉ txs.flatMap Transaction.nullifiers ∧ pool.pendingNullifiers.contains n := by
  unfold removeMined
  simp only [Std.ExtTreeMap.contains_eq_isSome_getElem?]
  induction txs generalizing pool with
  | nil => simp
  | cons tx txs ih =>
      rw [List.foldl_cons, ih, Table.get_foldl_erase, List.flatMap_cons, List.mem_append]
      by_cases h : n ∈ tx.nullifiers
      · simp [h]
      · simp [h]

/-! ## Selection -/

omit [Blake3] in
theorem selectFrom_sublist (maxTxs : Nat) (maxGas totalGas : UInt64)
    (selected candidates : List Transaction) :
    ∃ chosen, chosen.Sublist candidates ∧
      selectFrom maxTxs maxGas selected totalGas candidates = selected ++ chosen := by
  induction candidates generalizing selected totalGas with
  | nil => exact ⟨[], List.Sublist.refl _, by rw [selectFrom, List.append_nil]⟩
  | cons tx candidates ih =>
      rw [selectFrom]
      by_cases hfull : selected.length ≥ maxTxs
      · rw [if_pos hfull]
        exact ⟨[], List.nil_sublist _, (List.append_nil _).symm⟩
      · rw [if_neg hfull]
        by_cases hgas : totalGas + tx.gasLimit > maxGas
        · rw [if_pos hgas]
          obtain ⟨chosen, hsub, heq⟩ := ih totalGas selected
          exact ⟨chosen, hsub.cons tx, heq⟩
        · rw [if_neg hgas]
          obtain ⟨chosen, hsub, heq⟩ := ih (totalGas + tx.gasLimit) (selected ++ [tx])
          refine ⟨tx :: chosen, hsub.cons_cons tx, ?_⟩
          rw [heq, List.append_assoc, List.singleton_append]

omit [Blake3] in
theorem selectFrom_all (totalGas : UInt64) (selected candidates : List Transaction)
    {maxTxs : Nat} (hroom : selected.length + candidates.length ≤ maxTxs) :
    selectFrom maxTxs (-1) selected totalGas candidates = selected ++ candidates := by
  induction candidates generalizing selected totalGas with
  | nil => rw [selectFrom, List.append_nil]
  | cons tx candidates ih =>
      have hgas : ¬ totalGas + tx.gasLimit > -1 := by
        have hmax : (-1 : UInt64).toNat = 2 ^ 64 - 1 := rfl
        have hlt := (totalGas + tx.gasLimit).toNat_lt
        rw [gt_iff_lt, UInt64.not_lt, UInt64.le_iff_toNat_le]
        omega
      rw [List.length_cons] at hroom
      rw [selectFrom, if_neg (by omega), if_neg hgas, ih _ _ (by simp; omega), List.append_assoc,
        List.singleton_append]

omit [Blake3] in
/-- What is selected is, up to its order, part of the pooled transactions that
pass the format check. -/
theorem selectForBlock_subperm (pool : PrivateMempool)
    (shuffle : List Transaction → List Transaction) (hshuffle : ∀ txs, (shuffle txs).Perm txs)
    (maxTxs : Nat) (maxGas : UInt64) :
    (pool.selectForBlock shuffle maxTxs maxGas).Subperm
      (pool.txs.values.filter fun tx => tx.validateFormat.toBool) := by
  unfold selectForBlock
  obtain ⟨chosen, hsub, heq⟩ := selectFrom_sublist maxTxs maxGas 0 []
    ((shuffle (pool.txs.values.filter fun tx => tx.validateFormat.toBool)).insertionSort
      fun a b => b.fee ≤ a.fee)
  rw [heq, List.nil_append]
  exact hsub.subperm.trans ((List.perm_insertionSort _ _).trans (hshuffle _)).subperm

end PrivateMempool

/-! ## The invariant -/

/-- No two pooled transactions share a nullifier, and all their nullifiers are
reserved and unspent. -/
structure Consistent (pool : PrivateMempool) (store : StateStore) : Prop where
  format : ∀ {id : TxId} {tx : Transaction}, pool.txs[id]? = some tx → tx.validateFormat = .ok ()
  nodup : ∀ {id : TxId} {tx : Transaction}, pool.txs[id]? = some tx → tx.nullifiers.Nodup
  unspent : ∀ {id : TxId} {tx : Transaction}, pool.txs[id]? = some tx →
    ∀ n ∈ tx.nullifiers, ¬ store.containsNullifier n
  reserved : ∀ {id : TxId} {tx : Transaction}, pool.txs[id]? = some tx →
    ∀ n ∈ tx.nullifiers, pool.pendingNullifiers.contains n
  disjoint : ∀ {id id' : TxId} {tx tx' : Transaction}, id ≠ id' → pool.txs[id]? = some tx →
    pool.txs[id']? = some tx' → tx.nullifiers.Disjoint tx'.nullifiers

theorem consistent_empty (store : StateStore) : Consistent {} store := by
  have hnone {id : TxId} {tx : Transaction} :
      ({} : PrivateMempool).txs[id]? ≠ some tx := by
    show (∅ : Table TxId Transaction)[id]? ≠ _
    simp
  exact ⟨fun h => absurd h hnone, fun h => absurd h hnone, fun h => absurd h hnone,
    fun h => absurd h hnone, fun _ h => absurd h hnone⟩

section

variable [Blake3]

theorem Consistent.insert {pool pool' : PrivateMempool} {store : StateStore} {tx : Transaction}
    (h : Consistent pool store) (hnodup : tx.nullifiers.Nodup)
    (hinsert : pool.insert store tx = .ok pool') : Consistent pool' store := by
  obtain ⟨-, -, hformat, -, hfresh, rfl⟩ := PrivateMempool.insert_ok_iff.mp hinsert
  -- a nullifier of the new transaction is not pending, one of a pooled transaction is
  have hnew (id : TxId) (t : Transaction) (_ : tx.txId ≠ id) (ht : pool.txs[id]? = some t) :
      tx.nullifiers.Disjoint t.nullifiers := by
    intro n hn hn'
    exact (hfresh n hn).2 (h.reserved ht n hn')
  constructor
  · intro id t ht
    obtain ⟨-, rfl⟩ | ⟨-, ht⟩ := Table.get_insert_eq_some.mp ht
    · exact hformat
    · exact h.format ht
  · intro id t ht
    obtain ⟨-, rfl⟩ | ⟨-, ht⟩ := Table.get_insert_eq_some.mp ht
    · exact hnodup
    · exact h.nodup ht
  · intro id t ht n hn
    obtain ⟨-, rfl⟩ | ⟨-, ht⟩ := Table.get_insert_eq_some.mp ht
    · exact (hfresh n hn).1
    · exact h.unspent ht n hn
  · intro id t ht n hn
    rw [PrivateMempool.pending_inserted]
    obtain ⟨-, rfl⟩ | ⟨-, ht⟩ := Table.get_insert_eq_some.mp ht
    · exact .inl hn
    · exact .inr (h.reserved ht n hn)
  · intro id id' t t' hne ht ht'
    exact Table.insert_pairwise List.Disjoint.symm (fun _ _ _ _ => h.disjoint) hnew hne ht ht'

def Covers (pool : PrivateMempool) (block : Block) : Prop :=
  ∀ id tx, pool.txs[id]? = some tx → (∃ n ∈ tx.nullifiers, n ∈ block.nullifiers) →
    id ∈ block.transactions.map Transaction.txId

theorem get_removeMined_eq_some {pool : PrivateMempool} {txs : List Transaction} {id : TxId}
    {tx : Transaction} :
    (pool.removeMined txs).txs[id]? = some tx ↔
      id ∉ txs.map Transaction.txId ∧ pool.txs[id]? = some tx := by
  rw [PrivateMempool.get_removeMined]
  by_cases h : id ∈ txs.map Transaction.txId
  · simp [h]
  · simp [h]

theorem Consistent.commit {pool : PrivateMempool} {store store' : StateStore} {block : Block}
    (h : Consistent pool store) (hcovers : Covers pool block)
    (hspent : ∀ n, store'.containsNullifier n ↔
      n ∈ block.nullifiers ∨ store.containsNullifier n) :
    Consistent (pool.removeMined block.transactions) store' := by
  have hold {id : TxId} {tx : Transaction}
      (ht : (pool.removeMined block.transactions).txs[id]? = some tx) :
      pool.txs[id]? = some tx := (get_removeMined_eq_some.mp ht).2
  have huntouched {id : TxId} {tx : Transaction}
      (ht : (pool.removeMined block.transactions).txs[id]? = some tx) :
      ∀ n ∈ tx.nullifiers, n ∉ block.nullifiers := by
    obtain ⟨hleft, ht⟩ := get_removeMined_eq_some.mp ht
    intro n hn hmined
    exact hleft (hcovers id tx ht ⟨n, hn, hmined⟩)
  constructor
  · intro id tx ht
    exact h.format (hold ht)
  · intro id tx ht
    exact h.nodup (hold ht)
  · intro id tx ht n hn
    rw [hspent, not_or]
    exact ⟨huntouched ht n hn, h.unspent (hold ht) n hn⟩
  · intro id tx ht n hn
    rw [PrivateMempool.pending_removeMined]
    exact ⟨huntouched ht n hn, h.reserved (hold ht) n hn⟩
  · intro id id' tx tx' hne ht ht'
    exact h.disjoint hne (hold ht) (hold ht')

/-! ## Selected bodies -/

/-- Whatever is selected, a block of it at the next height is no double spend. -/
def SelectsFresh (s : PrivateMempool × StateStore) : Prop :=
  ∀ (shuffle : List Transaction → List Transaction), (∀ txs, (shuffle txs).Perm txs) →
    ∀ (maxTxs : Nat) (maxGas : UInt64) (block : Block) (changes : Table Bytes Bytes)
      (contracts : List (Hash32 × Bytes)),
      block.transactions = s.1.selectForBlock shuffle maxTxs maxGas →
      block.header.height = s.2.expectedHeight →
      (s.2.applyBlock block changes contracts).2 ≠ .error .doubleSpend

theorem Consistent.selectsFresh {pool : PrivateMempool} {store : StateStore}
    (h : Consistent pool store) : SelectsFresh (pool, store) := by
  intro shuffle hshuffle maxTxs maxGas block changes contracts hbody _ herror
  obtain ⟨-, hstale⟩ := applyBlock_doubleSpend_iff.mp herror
  apply hstale
  have hsub := pool.selectForBlock_subperm shuffle hshuffle maxTxs maxGas
  rw [← hbody] at hsub
  obtain ⟨txs, hperm, hsublist⟩ := hsub.trans (List.filter_sublist).subperm
  have hpairwise : pool.txs.values.Pairwise fun tx tx' =>
      tx.nullifiers.Disjoint tx'.nullifiers :=
    Table.pairwise_values fun _ _ _ _ hne ht ht' => h.disjoint hne ht ht'
  have hpooled : ∀ tx ∈ txs, ∃ id : TxId, pool.txs[id]? = some tx :=
    fun tx htx => Table.mem_values.mp (hsublist.subset htx)
  have hnullifiers : block.nullifiers.Perm (txs.flatMap Transaction.nullifiers) :=
    hperm.symm.flatMap_right _
  constructor
  · rw [hnullifiers.nodup_iff, List.nodup_flatMap]
    refine ⟨?_, hpairwise.sublist hsublist⟩
    intro tx htx
    obtain ⟨id, ht⟩ := hpooled tx htx
    exact h.nodup ht
  · intro n hn
    obtain ⟨tx, htx, hmem⟩ := List.mem_flatMap.mp (hnullifiers.mem_iff.mp hn)
    obtain ⟨id, ht⟩ := hpooled tx htx
    exact h.unspent ht n hmem

omit [Blake3] in
theorem mem_selectForBlock_all {pool : PrivateMempool} {id : TxId} {tx : Transaction}
    (ht : pool.txs[id]? = some tx) (hformat : tx.validateFormat = .ok ()) :
    tx ∈ pool.selectForBlock (fun txs => txs) pool.txs.values.length (-1) := by
  unfold PrivateMempool.selectForBlock
  rw [PrivateMempool.selectFrom_all, List.nil_append, List.mem_insertionSort, List.mem_filter]
  · refine ⟨Table.mem_values.mpr ⟨id, ht⟩, ?_⟩
    rw [hformat]
    rfl
  · rw [List.length_insertionSort, List.length_nil, Nat.zero_add]
    exact List.length_filter_le _ _

theorem not_selectsFresh {s : PrivateMempool × StateStore} {id : TxId} {tx : Transaction}
    {n : Hash32} (ht : s.1.txs[id]? = some tx) (hformat : tx.validateFormat = .ok ())
    (hn : n ∈ tx.nullifiers) (hspent : s.2.containsNullifier n) : ¬ SelectsFresh s := by
  intro hfresh
  let body := s.1.selectForBlock (fun txs => txs) s.1.txs.values.length (-1)
  let block := Block.blank s.2.expectedHeight (fill 32 0) body
  apply hfresh (fun txs => txs) (fun _ => .refl _) s.1.txs.values.length (-1) block ∅ [] rfl rfl
  refine applyBlock_doubleSpend_iff.mpr ⟨rfl, ?_⟩
  intro hunspent
  have hmem : n ∈ block.nullifiers :=
    List.mem_flatMap.mpr ⟨tx, mem_selectForBlock_all ht hformat, hn⟩
  exact hunspent.2 n hmem hspent

/-! ## Runs -/

def Sanctioned (s : PrivateMempool × StateStore) : PoolOp → Prop
  | .insert tx => tx.nullifiers.Nodup
  | .commit block _ _ => s.2.Accepts block

instance (s : PrivateMempool × StateStore) : DecidablePred (Sanctioned s)
  | .insert tx => inferInstanceAs (Decidable tx.nullifiers.Nodup)
  | .commit block _ _ => inferInstanceAs (Decidable (s.2.Accepts block))

def NoConflict (s : PrivateMempool × StateStore) : PoolOp → Prop
  | .insert _ => True
  | .commit block _ _ => Covers s.1 block

theorem step_commit {pool : PrivateMempool} {store : StateStore} {block : Block}
    (haccept : store.Accepts block) (changes : Table Bytes Bytes)
    (contracts : List (Hash32 × Bytes)) :
    (poolMachine.step (pool, store) (.commit block changes contracts)).1 =
      (pool.removeMined block.transactions, (store.applyBlock block changes contracts).1) := by
  obtain ⟨-, h⟩ | ⟨hreject, -⟩ := applyBlock_cases store block changes contracts
  · simp [poolMachine, h]
  · exact absurd haccept hreject

theorem Consistent.step {pool : PrivateMempool} {store : StateStore} {op : PoolOp}
    (h : Consistent pool store) (hop : Sanctioned (pool, store) op)
    (hconflict : NoConflict (pool, store) op) :
    Consistent (poolMachine.step (pool, store) op).1.1 (poolMachine.step (pool, store) op).1.2 := by
  cases op with
  | insert tx =>
      simp only [poolMachine]
      cases hinsert : pool.insert store tx with
      | error e => exact h
      | ok pool' => exact h.insert hop hinsert
  | commit block changes contracts =>
      rw [step_commit hop]
      exact h.commit hconflict (containsNullifier_applyBlock hop)

/-- A committed block that leaves a conflicting transaction behind, and nothing else,
poisons the pool. -/
theorem selectsFresh_step_iff {pool : PrivateMempool} {store : StateStore} {op : PoolOp}
    (h : Consistent pool store) (hop : Sanctioned (pool, store) op) :
    SelectsFresh (poolMachine.step (pool, store) op).1 ↔ NoConflict (pool, store) op := by
  constructor
  · intro hfresh
    by_contra hconflict
    cases op with
    | insert tx => exact hconflict trivial
    | commit block changes contracts =>
        simp only [NoConflict, Covers, not_forall] at hconflict
        obtain ⟨id, tx, ht, ⟨n, hn, hmined⟩, hleft⟩ := hconflict
        rw [step_commit hop] at hfresh
        refine not_selectsFresh (get_removeMined_eq_some.mpr ⟨hleft, ht⟩) (h.format ht) hn ?_ hfresh
        exact (containsNullifier_applyBlock hop n).mpr (.inl hmined)
  · intro hconflict
    exact (h.step hop hconflict).selectsFresh

/-- From an empty pool on any store, over insertions and committed blocks: in
every state reached, whatever is selected can be applied at the next height
without a double spend, exactly when every committed block held the pooled
transactions it shared a nullifier with. -/
theorem selection_fresh_iff (store : StateStore) (ops : List PoolOp)
    (hops : poolMachine.Admissible Sanctioned ({}, store) ops) :
    (∀ ops', ops' <+: ops → SelectsFresh (poolMachine.final ({}, store) ops')) ↔
      poolMachine.Admissible NoConflict ({}, store) ops :=
  poolMachine.forall_prefix_iff (fun s => Consistent s.1 s.2) SelectsFresh
    (fun _ _ hop h hconflict => h.step hop hconflict)
    (fun _ _ hop h => selectsFresh_step_iff h hop)
    (consistent_empty store) (consistent_empty store).selectsFresh hops

end

/-! ## A foreign block and its rival in the pool -/

section

attribute [local instance] Blake3.sum

def payment (commitment : UInt8) : Transaction :=
  Transaction.blank [SpendDescription.blank (fill 32 7)]
    [OutputDescription.blank (fill 32 commitment)] []

def poolThenCommit (pooled mined : UInt8) : List PoolOp :=
  [.insert (payment pooled), .commit (Block.blank 0 (fill 32 0) [payment mined]) ∅ []]

theorem rival_selected :
    poolMachine.Admissible Sanctioned ({}, StateStore.empty) (poolThenCommit 1 2) ∧
      ¬ SelectsFresh (poolMachine.final ({}, StateStore.empty) (poolThenCommit 1 2)) := by
  have hpooled : (poolMachine.final ({}, StateStore.empty)
      (poolThenCommit 1 2)).1.txs[(payment 1).txId]? = some (payment 1) := by decide +kernel
  have hspent : (poolMachine.final ({}, StateStore.empty)
      (poolThenCommit 1 2)).2.containsNullifier (fill 32 7) := by decide +kernel
  have hformat : (payment 1).validateFormat = .ok () := by decide +kernel
  have hn : fill 32 7 ∈ (payment 1).nullifiers := by decide
  exact ⟨by decide +kernel, not_selectsFresh hpooled hformat hn hspent⟩

theorem mined_selection_fresh_iff :
    poolMachine.Admissible Sanctioned ({}, StateStore.empty) (poolThenCommit 1 1) ∧
      ((∀ ops', ops' <+: poolThenCommit 1 1 →
          SelectsFresh (poolMachine.final ({}, StateStore.empty) ops')) ↔
        poolMachine.Admissible NoConflict ({}, StateStore.empty) (poolThenCommit 1 1)) := by
  have hops : poolMachine.Admissible Sanctioned ({}, StateStore.empty) (poolThenCommit 1 1) := by
    decide +kernel
  exact ⟨hops, selection_fresh_iff StateStore.empty (poolThenCommit 1 1) hops⟩

end

end NoirNet
