import NoirNet.Consensus.Concrete
import NoirNet.Consensus.Outcome
import NoirNet.Proofs.Selection

/-!
# Admission and acceptance

The mempool checks a transaction's format when it is admitted and again when it
is selected, and never looks at its proof; phase 1 checks both.  So a selected
transaction passes phase 1 exactly when its proof does.
-/

namespace NoirNet

open Lib StateStore

section

variable [Blake3]

/-! ## Only admitted transactions are selected -/

def PooledFrom (admitted : List Transaction) (pool : PrivateMempool) : Prop :=
  ∀ (id : TxId) (tx : Transaction), pool.txs[id]? = some tx → tx ∈ admitted

theorem PooledFrom.step {admitted : List Transaction} {s : PrivateMempool × StateStore}
    (h : PooledFrom admitted s.1) (op : PoolOp) :
    PooledFrom (admitted ++ (poolMachine.step s op).2) (poolMachine.step s op).1.1 := by
  obtain ⟨pool, store⟩ := s
  cases op with
  | insert tx =>
      simp only [poolMachine]
      cases hinsert : pool.insert store tx with
      | error e => simpa using h
      | ok pool' =>
          obtain ⟨-, -, -, -, -, rfl⟩ := PrivateMempool.insert_ok_iff.mp hinsert
          intro id t ht
          rw [PrivateMempool.get_inserted] at ht
          by_cases hid : tx.txId = id
          · rw [if_pos hid] at ht
            cases ht
            simp
          · rw [if_neg hid] at ht
            exact List.mem_append_left _ (h id t ht)
  | commit block changes contracts =>
      simp only [poolMachine]
      cases hresult : store.applyBlock block changes contracts with
      | mk store' result =>
          cases result with
          | error e => simpa using h
          | ok root =>
              intro id t ht
              exact List.mem_append_left _ (h id t (get_removeMined_eq_some.mp ht).2)

theorem pooledFrom_run {admitted : List Transaction} {s : PrivateMempool × StateStore}
    (h : PooledFrom admitted s.1) (ops : List PoolOp) :
    PooledFrom (admitted ++ poolMachine.outputs s ops) (poolMachine.final s ops).1 := by
  induction ops generalizing admitted s with
  | nil => simpa using h
  | cons op ops ih =>
      have hrest := ih (h.step op)
      rwa [List.append_assoc] at hrest

omit [Blake3] in
theorem pooled_of_selected {pool : PrivateMempool} {tx : Transaction}
    {shuffle : List Transaction → List Transaction} (hshuffle : ∀ txs, (shuffle txs).Perm txs)
    {maxTxs : Nat} {maxGas : UInt64} (hselected : tx ∈ pool.selectForBlock shuffle maxTxs maxGas) :
    (∃ id : TxId, pool.txs[id]? = some tx) ∧ tx.validateFormat = .ok () := by
  have hmem := (pool.selectForBlock_subperm shuffle hshuffle maxTxs maxGas).subset hselected
  obtain ⟨hvalue, hformat⟩ := List.mem_filter.mp hmem
  refine ⟨Table.mem_values.mp hvalue, ?_⟩
  cases hresult : tx.validateFormat with
  | ok u => rfl
  | error e => simp [hresult, Except.toBool] at hformat

/-! ## What phase 1 makes of them -/

variable [Nova]

/-- On any run of the pool, what is selected was admitted and passes the format
and gas checks; phase 1 accepts it, alone or in some block, exactly when its
spends are proven. -/
theorem selected_accepted_iff (store : StateStore) (ops : List PoolOp)
    (shuffle : List Transaction → List Transaction) (hshuffle : ∀ txs, (shuffle txs).Perm txs)
    (maxTxs : Nat) (maxGas : UInt64) :
    ∀ tx ∈ (poolMachine.final ({}, store) ops).1.selectForBlock shuffle maxTxs maxGas,
      tx ∈ poolMachine.outputs ({}, store) ops ∧
      tx.validateFormat = .ok () ∧ tx.gasLimit ≤ MAX_TX_GAS ∧
      (verifyTransaction tx = .ok () ↔ tx.Proven) ∧
      ((∃ txs, tx ∈ txs ∧ verifyTransactions txs = .ok ()) ↔ tx.Proven) := by
  intro tx hselected
  obtain ⟨⟨id, hpooled⟩, hformat⟩ := pooled_of_selected hshuffle hselected
  have hempty : PooledFrom [] ({}, store).1 := by
    intro id t ht
    have hnone : (∅ : Table TxId Transaction)[id]? = some t := ht
    simp at hnone
  have hadmitted := pooledFrom_run hempty ops id tx hpooled
  have hone : verifyTransaction tx = .ok () ↔ tx.Proven := by
    simp [verifyTransaction_ok_iff, hformat]
  obtain ⟨-, -, -, -, -, -, hgas, -, -, -⟩ := Transaction.validateFormat_ok_iff.mp hformat
  refine ⟨by simpa using hadmitted, hformat, hgas, hone, ?_⟩
  rw [← hone]
  constructor
  · rintro ⟨txs, hmem, hpass⟩
    exact verifyTransactions_ok_iff.mp hpass tx hmem
  · intro hpass
    exact ⟨[tx], List.mem_singleton_self tx, verifyTransactions_ok_iff.mpr (by simpa using hpass)⟩

end

/-! ## A transfer without a proof -/

section

attribute [local instance] Blake3.sum Nova.rejecting

theorem unproven_selected :
    payment 1 ∈ (poolMachine.final ({}, StateStore.empty) [.insert (payment 1)]).1.selectForBlock
        (fun txs => txs) 1 MAX_BLOCK_GAS ∧
      verifyTransaction (payment 1) = .error (.missingProof (payment 1)) := by
  decide +kernel

theorem transfer_accepted_iff :
    payment 1 ∈ poolMachine.outputs ({}, StateStore.empty) [.insert (payment 1)] ∧
      (payment 1).validateFormat = .ok () ∧ (payment 1).gasLimit ≤ MAX_TX_GAS ∧
      (verifyTransaction (payment 1) = .ok () ↔ (payment 1).Proven) ∧
      ((∃ txs, payment 1 ∈ txs ∧ verifyTransactions txs = .ok ()) ↔ (payment 1).Proven) :=
  selected_accepted_iff StateStore.empty [.insert (payment 1)] (fun txs => txs)
    (fun _ => .refl _) 1 MAX_BLOCK_GAS (payment 1) (by decide +kernel)

end

end NoirNet
