import NoirNet.Concrete
import NoirNet.Identifiers
import NoirNet.Proofs.DoubleSpend

/-!
# Replayed transactions

Nothing but its nullifiers keeps a transaction from being applied again: one
that spends can be applied once, one that only calls or deploys a contract as
often as a block carries it.  The store does remember what it applied, in the
`txs` table, and so the condition under which no id repeats can be asked of the
store and the block: every transaction without spends is new to both.
-/

namespace NoirNet

open Lib StateStore

abbrev Transaction.isBare (tx : Transaction) : Bool := tx.spends.isEmpty

theorem nodup_of_bare {txs : List Transaction}
    (hnullifiers : (txs.flatMap fun tx => tx.spends.map (·.nullifier)).Nodup)
    (hbare : (txs.filter Transaction.isBare).Nodup) : txs.Nodup := by
  induction txs with
  | nil => exact List.nodup_nil
  | cons tx txs ih =>
      rw [List.flatMap_cons, List.nodup_append] at hnullifiers
      obtain ⟨-, hrest, hdisjoint⟩ := hnullifiers
      rw [List.nodup_cons]
      cases hspends : tx.spends with
      | nil =>
          have hkeep : tx.isBare := by simp [Transaction.isBare, hspends]
          rw [List.filter_cons_of_pos hkeep, List.nodup_cons] at hbare
          refine ⟨?_, ih hrest hbare.2⟩
          intro hmem
          exact hbare.1 (List.mem_filter.mpr ⟨hmem, hkeep⟩)
      | cons spend spends =>
          have hdrop : ¬ tx.isBare := by simp [Transaction.isBare, hspends]
          rw [List.filter_cons_of_neg hdrop] at hbare
          refine ⟨?_, ih hrest hbare⟩
          intro hmem
          have hspend : spend.nullifier ∈ tx.spends.map (·.nullifier) := by simp [hspends]
          exact hdisjoint _ hspend _ (List.mem_flatMap.mpr ⟨tx, hmem, hspend⟩) rfl

variable [Blake3]

def appliedTransactions (store : StateStore) (submissions : List Submission) : List Transaction :=
  (ledgerMachine.outputs store submissions).flatMap (·.transactions)

def NoReplay (store : StateStore) (s : Submission) : Prop :=
  store.Accepts s.block →
    ((s.block.transactions.filter Transaction.isBare).map Transaction.txId).Nodup ∧
      ∀ tx ∈ s.block.transactions, tx.isBare → store.db.txs[tx.txId]? = none

/-! ## The history behind a store -/

/-- The store remembers the transactions of the list: their ids are the keys of
the `txs` table, their nullifiers are spent. -/
structure Remembers (history : List Transaction) (store : StateStore) : Prop where
  ids : ∀ id, store.db.txs[id]?.isSome ↔ id ∈ history.map Transaction.txId
  spent : ∀ tx ∈ history, ∀ spend ∈ tx.spends, store.containsNullifier spend.nullifier

theorem remembers_empty : Remembers [] StateStore.empty where
  ids id := by
    show (∅ : Table TxId Transaction)[id]?.isSome ↔ _
    simp
  spent := by simp

theorem Remembers.applied {history : List Transaction} {store : StateStore}
    (h : Remembers history store) {s : Submission} (haccept : store.Accepts s.block) :
    Remembers (history ++ s.block.transactions) (ledgerMachine.step store s).1 := by
  constructor
  · intro id
    rw [ledgerMachine_step, step_applyBlock_fst, txs_applyBlock haccept,
      Table.isSome_foldl_insert Transaction.txId fun tx => tx, h.ids, List.map_append,
      List.mem_append, or_comm]
  · intro tx htx spend hspend
    rw [ledgerMachine_step]
    rcases List.mem_append.mp htx with hold | hnew
    · exact containsNullifier_step (h.spent tx hold spend hspend) _
    · apply (fresh_step store _).2
      rw [← ledgerMachine_step, step_of_accepts haccept, List.flatMap_singleton]
      exact List.mem_flatMap.mpr ⟨tx, hnew, List.mem_map.mpr ⟨spend, hspend, rfl⟩⟩

theorem Remembers.rejected {history : List Transaction} {store : StateStore}
    (h : Remembers history store) {s : Submission} (hreject : ¬ store.Accepts s.block) :
    Remembers history (ledgerMachine.step store s).1 where
  ids id := by
    obtain ⟨-, _, _, _, _, _, hbody⟩ := step_of_not_accepts hreject
    rw [hbody]
    exact h.ids id
  spent tx htx spend hspend := by
    rw [ledgerMachine_step]
    exact containsNullifier_step (h.spent tx htx spend hspend) _

/-! ## One block, and a run -/

def Identified (inputs : Set Bytes) (tx : Transaction) : Prop :=
  tx.validateFormat = .ok () ∧ tx.serialize ∈ inputs

section

variable {inputs : Set Bytes} (hfree : Blake3.CollisionFree inputs)

include hfree

theorem Identified.eq_of_txId_eq {a b : Transaction} (ha : Identified inputs a)
    (hb : Identified inputs b) (h : a.txId = b.txId) : a = b :=
  Transaction.eq_of_txId_eq hfree ha.2 hb.2 ha.1 h

theorem nodup_txIds_iff {txs : List Transaction} (htxs : ∀ tx ∈ txs, Identified inputs tx) :
    (txs.map Transaction.txId).Nodup ↔ txs.Nodup := by
  constructor
  · exact List.Nodup.of_map _
  · apply List.Nodup.map_on
    intro a ha b hb
    exact (htxs a ha).eq_of_txId_eq hfree (htxs b hb)

/-- No id repeats behind an applied block exactly when none of its bare
transactions is a repetition. -/
theorem nodup_applied_iff {history : List Transaction} {store : StateStore} {s : Submission}
    (hremembers : Remembers history store) (hnodup : (history.map Transaction.txId).Nodup)
    (hhistory : ∀ tx ∈ history, Identified inputs tx)
    (hblock : ∀ tx ∈ s.block.transactions, Identified inputs tx)
    (haccept : store.Accepts s.block) :
    ((history ++ s.block.transactions).map Transaction.txId).Nodup ↔ NoReplay store s := by
  have hbareIds : ((s.block.transactions.filter Transaction.isBare).map Transaction.txId).Nodup ↔
      (s.block.transactions.filter Transaction.isBare).Nodup :=
    nodup_txIds_iff hfree fun tx htx => hblock tx (List.mem_of_mem_filter htx)
  rw [List.map_append, List.nodup_append, nodup_txIds_iff hfree hblock]
  constructor
  · rintro ⟨-, hbody, hdisjoint⟩ -
    refine ⟨hbareIds.mpr (hbody.filter _), ?_⟩
    intro tx htx _
    rw [← Option.not_isSome_iff_eq_none, hremembers.ids]
    intro hold
    exact hdisjoint _ hold _ (List.mem_map_of_mem htx) rfl
  · intro hnew
    obtain ⟨hbare, habsent⟩ := hnew haccept
    refine ⟨hnodup, nodup_of_bare haccept.2.1 (hbareIds.mp hbare), ?_⟩
    rintro id hold _ hid rfl
    obtain ⟨tx, htx, hidTx⟩ := List.mem_map.mp hid
    obtain ⟨tx', htx', hidTx'⟩ := List.mem_map.mp hold
    have hsame : tx' = tx :=
      (hhistory tx' htx').eq_of_txId_eq hfree (hblock tx htx) (hidTx'.trans hidTx.symm)
    cases hspends : tx.spends with
    | nil =>
        have hnone := habsent tx htx (by simp [Transaction.isBare, hspends])
        have hsome := (hremembers.ids tx.txId).mpr (hidTx.symm ▸ hold)
        rw [hnone] at hsome
        cases hsome
    | cons spend spends =>
        have hspend : spend ∈ tx.spends := by simp [hspends]
        have hspent := hremembers.spent tx' htx' spend (hsame ▸ hspend)
        apply haccept.2.2 spend.nullifier _ hspent
        exact List.mem_flatMap.mpr ⟨tx, htx, List.mem_map_of_mem hspend⟩

theorem nodup_run_iff {history : List Transaction} {store : StateStore}
    {submissions : List Submission} (hremembers : Remembers history store)
    (hnodup : (history.map Transaction.txId).Nodup)
    (hhistory : ∀ tx ∈ history, Identified inputs tx)
    (hblocks : ∀ s ∈ submissions, ∀ tx ∈ s.block.transactions, Identified inputs tx) :
    ((history ++ appliedTransactions store submissions).map Transaction.txId).Nodup ↔
      ledgerMachine.Admissible NoReplay store submissions := by
  induction submissions generalizing history store with
  | nil => simpa [appliedTransactions, Machine.Admissible] using hnodup
  | cons s submissions ih =>
      have hblock := hblocks s List.mem_cons_self
      have hrest : ∀ s ∈ submissions, ∀ tx ∈ s.block.transactions, Identified inputs tx :=
        fun s hs => hblocks s (List.mem_cons_of_mem _ hs)
      rw [Machine.Admissible]
      by_cases haccept : store.Accepts s.block
      · have happlied : appliedTransactions store (s :: submissions) =
            s.block.transactions ++
              appliedTransactions (ledgerMachine.step store s).1 submissions := by
          rw [appliedTransactions, Machine.outputs_cons, step_of_accepts haccept]
          simp [appliedTransactions]
        have hone := nodup_applied_iff hfree hremembers hnodup hhistory hblock haccept
        rw [happlied, ← List.append_assoc]
        by_cases hnew : NoReplay store s
        · rw [ih (hremembers.applied haccept) (hone.mpr hnew) _ hrest]
          · simp [hnew]
          · intro tx htx
            exact (List.mem_append.mp htx).elim (hhistory tx) (hblock tx)
        · have hrepeat := mt hone.mp hnew
          rw [List.map_append]
          exact ⟨fun h => absurd (h.sublist (List.sublist_append_left _ _)) hrepeat,
            fun h => absurd h.1 hnew⟩
      · have happlied : appliedTransactions store (s :: submissions) =
            appliedTransactions (ledgerMachine.step store s).1 submissions := by
          rw [appliedTransactions, Machine.outputs_cons, (step_of_not_accepts haccept).1]
          rfl
        rw [happlied, ih (hremembers.rejected haccept) hnodup hhistory hrest]
        simp [NoReplay, haccept]

end

/-- Over any run of `apply_block` from an empty database no transaction id
repeats among the applied transactions exactly when every block that is applied
brings no bare transaction twice and none that the store already holds. -/
theorem no_replay_iff (submissions : List Submission)
    (hformat : ∀ s ∈ submissions, ∀ tx ∈ s.block.transactions, tx.validateFormat = .ok ())
    (hfree : Blake3.CollisionFree
      {bytes | ∃ s ∈ submissions, ∃ tx ∈ s.block.transactions, bytes = tx.serialize}) :
    ((appliedTransactions StateStore.empty submissions).map Transaction.txId).Nodup ↔
      ledgerMachine.Admissible NoReplay StateStore.empty submissions :=
  nodup_run_iff hfree remembers_empty List.nodup_nil (by simp)
    fun s hs tx htx => ⟨hformat s hs tx htx, s, hs, tx, htx, rfl⟩

/-! ## A deployment that is applied twice -/

def deployment : Transaction := { Transaction.blank [] [] [] with deployContract := some [1] }

def submit (height : UInt64) (txs : List Transaction) : Submission where
  block := Block.blank height (fill 32 0) txs
  contractStateChanges := ∅
  newContracts := []

omit [Blake3] in
theorem deployment_applied_twice :
    letI := Blake3.sum
    let submissions := [submit 0 [deployment], submit 1 [deployment]]
    (∀ s ∈ submissions, ∀ tx ∈ s.block.transactions, tx.validateFormat = .ok ()) ∧
      ¬ ((appliedTransactions StateStore.empty submissions).map Transaction.txId).Nodup := by
  decide +kernel

def spending : Transaction := Transaction.blank [SpendDescription.blank (fill 32 7)]
  [OutputDescription.blank (fill 32 9)] []

omit [Blake3] in
theorem no_replay_distinct :
    letI := Blake3.sum
    let submissions := [submit 0 [spending], submit 1 [deployment]]
    (∀ s ∈ submissions, ∀ tx ∈ s.block.transactions, tx.validateFormat = .ok ()) ∧
      (((appliedTransactions StateStore.empty submissions).map Transaction.txId).Nodup ↔
        ledgerMachine.Admissible NoReplay StateStore.empty submissions) := by
  let _ := Blake3.sum
  have hformat : ∀ s ∈ [submit 0 [spending], submit 1 [deployment]],
      ∀ tx ∈ s.block.transactions, tx.validateFormat = .ok () := by decide +kernel
  have hfree : Blake3.CollisionFree
      {bytes | bytes ∈ [spending, deployment].map Transaction.serialize} :=
    Blake3.collisionFree_of_nodup (by decide +kernel)
  refine ⟨hformat, no_replay_iff _ hformat (hfree.mono ?_)⟩
  rintro bytes ⟨s, hs, tx, htx, rfl⟩
  simp [submit, Block.blank] at hs
  rcases hs with rfl | rfl <;> simp_all

end NoirNet
