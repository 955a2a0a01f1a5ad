import NoirNet.MempoolCalls
import NoirNet.Proofs.DoubleSpend
import NoirNet.Proofs.Selection

/-!
# Reservations of the mempool

A pooled nullifier stays reserved until `remove_mined` releases it, and what is
released was spent by an applied block.  So every nullifier of a pooled
transaction is its own reservation or is on the chain, where no insertion gets
past it.

* `insertCall_eq`: the operations of a lone call add up to `insert`;
* `Reserving`: the invariant, with one lemma for each of the three operations;
* `reservation_invariant`: the run.
-/

namespace NoirNet

open Lib StateStore

/-! ## A call that is not interrupted -/

namespace PrivateMempool

section

variable [Blake3]

def settled (pool : PrivateMempool) (result : Except MempoolError PrivateMempool) :
    PrivateMempool × InsertStage :=
  (result.toOption.getD pool, .returned (result.map fun _ => ()))

theorem iterate_returned (state : StateStore) (tx : Transaction) (pool : PrivateMempool)
    (result : Except MempoolError Unit) (k : Nat) :
    (insertStep state tx)^[k] (pool, .returned result) = (pool, .returned result) :=
  Function.iterate_fixed rfl k

theorem iterate_reserving (state : StateStore) (tx : Transaction) (left : List SpendDescription)
    (pool : PrivateMempool) {k : Nat} (hk : left.length + 1 ≤ k) :
    (insertStep state tx)^[k] (pool, .reserving left) =
      ({ txs := pool.txs.insert tx.txId tx
         pendingNullifiers := left.foldl
          (fun pending spend => pending.insert spend.nullifier tx.txId) pool.pendingNullifiers },
        .returned (.ok ())) := by
  obtain ⟨k, rfl⟩ := Nat.exists_eq_add_of_le' (Nat.le_trans (Nat.le_add_left _ _) hk)
  rw [Function.iterate_succ_apply]
  induction left generalizing pool k with
  | nil => exact iterate_returned state tx _ _ k
  | cons spend left ih =>
      rw [List.length_cons] at hk
      obtain ⟨k, rfl⟩ := Nat.exists_eq_add_of_le' (show 1 ≤ k by omega)
      rw [Function.iterate_succ_apply]
      exact ih _ k (by omega)

theorem iterate_checking (state : StateStore) (tx : Transaction) (left : List SpendDescription)
    (pool : PrivateMempool) {k : Nat} (hk : 2 * left.length + tx.spends.length + 1 ≤ k) :
    (insertStep state tx)^[k] (pool, .checking tx.spends left) =
      pool.settled ((pool.checkNullifiers state left).map fun _ => pool.inserted tx) := by
  induction left generalizing k with
  | nil => exact iterate_reserving state tx tx.spends pool (by simpa using hk)
  | cons spend left ih =>
      rw [List.length_cons] at hk
      obtain ⟨k, rfl⟩ := Nat.exists_eq_add_of_le' (show 2 ≤ k by omega)
      have hstart : (insertStep state tx)^[k + 2] (pool, .checking tx.spends (spend :: left)) =
          (insertStep state tx)^[k + 1] (pool,
            if state.containsNullifier spend.nullifier then .returned (.error .alreadySpent)
            else .containsPending spend left) := rfl
      rw [hstart, checkNullifiers]
      by_cases hspent : state.containsNullifier spend.nullifier
      · rw [if_pos hspent, if_pos hspent, iterate_returned]
        rfl
      · rw [if_neg hspent, if_neg hspent, Function.iterate_succ_apply, insertStep]
        by_cases hpending : pool.pendingNullifiers.contains spend.nullifier
        · rw [if_pos hpending, if_pos hpending, iterate_returned]
          rfl
        · rw [if_neg hpending, if_neg hpending]
          apply ih
          omega

/-- A call that no other call interrupts does what `insert` does. -/
theorem insertCall_eq (pool : PrivateMempool) (state : StateStore) (tx : Transaction) :
    pool.insertCall state tx = pool.settled (pool.insert state tx) := by
  unfold insertCall insert
  rw [Function.iterate_succ_apply, insertStep]
  by_cases hfull : pool.txs.size ≥ MAX_MEMPOOL_SIZE
  · rw [if_pos hfull, if_pos hfull, iterate_returned]
    rfl
  · rw [if_neg hfull, if_neg hfull, Function.iterate_succ_apply, insertStep]
    by_cases hknown : pool.txs.contains tx.txId
    · rw [if_pos hknown, iterate_returned]
      simp only [hknown]
      rfl
    · rw [if_neg hknown, InsertStage.admitting]
      simp only [hknown]
      cases hformat : tx.validateFormat with
      | error e =>
          dsimp only
          rw [iterate_returned]
          rfl
      | ok u =>
          dsimp only
          by_cases hfee : tx.fee < MIN_FEE
          · rw [if_pos hfee, if_pos hfee, iterate_returned]
            rfl
          · rw [if_neg hfee, if_neg hfee, iterate_checking state tx tx.spends pool (by omega)]
            cases pool.checkNullifiers state tx.spends with
            | error e => rfl
            | ok u => rfl

theorem get_pending_inserted (pool : PrivateMempool) (tx : Transaction) (n : Hash32) :
    (pool.inserted tx).pendingNullifiers[n]? =
      if n ∈ tx.nullifiers then some tx.txId else pool.pendingNullifiers[n]? := by
  have hget := Table.get_foldl_insert_const (·.nullifier) tx.txId tx.spends pool.pendingNullifiers n
  by_cases hn : n ∈ tx.nullifiers
  · rw [if_pos hn] at hget ⊢
    exact hget
  · rw [if_neg hn] at hget ⊢
    exact hget

theorem get_pending_removeMined (pool : PrivateMempool) (txs : List Transaction) (n : Hash32) :
    (pool.removeMined txs).pendingNullifiers[n]? =
      if n ∈ txs.flatMap Transaction.nullifiers then none else pool.pendingNullifiers[n]? := by
  unfold removeMined
  induction txs generalizing pool with
  | nil => simp
  | cons tx txs ih =>
      rw [List.foldl_cons, ih, Table.get_foldl_erase, List.flatMap_cons]
      by_cases h : n ∈ tx.nullifiers
      · simp [h]
      · simp [h]

theorem size_removeMined_le (pool : PrivateMempool) (txs : List Transaction) :
    (pool.removeMined txs).txs.size ≤ pool.txs.size := by
  unfold removeMined
  induction txs generalizing pool with
  | nil => exact Nat.le_refl _
  | cons tx txs ih =>
      rw [List.foldl_cons]
      calc
        _ ≤ (pool.txs.erase tx.txId).size := ih _
        _ ≤ pool.txs.size := Std.ExtTreeMap.size_erase_le

end

/-! ## The invariant -/

/-- No two pooled transactions share a nullifier. -/
def Conflictless (pool : PrivateMempool) : Prop :=
  ∀ (id id' : TxId) (tx tx' : Transaction), id ≠ id' → pool.txs[id]? = some tx →
    pool.txs[id']? = some tx' → tx.nullifiers.Disjoint tx'.nullifiers

/-- What the pool holds is reserved for it or on the chain, and there is room for it. -/
structure Reserving (pool : PrivateMempool) (store : StateStore) : Prop where
  conflictless : pool.Conflictless
  reserved : ∀ (id : TxId) (tx : Transaction), pool.txs[id]? = some tx → ∀ n ∈ tx.nullifiers,
    pool.pendingNullifiers[n]? = some id ∨ store.containsNullifier n
  bounded : pool.txs.size ≤ MAX_MEMPOOL_SIZE

theorem reserving_empty (store : StateStore) : Reserving {} store := by
  have hnone (id : TxId) (tx : Transaction) : ({} : PrivateMempool).txs[id]? ≠ some tx := by
    show (∅ : Table TxId Transaction)[id]? ≠ _
    simp
  constructor
  · intro id id' tx tx' _ ht
    exact absurd ht (hnone id tx)
  · intro id tx ht
    exact absurd ht (hnone id tx)
  · show (∅ : Table TxId Transaction).size ≤ _
    simp

variable [Blake3] {pool : PrivateMempool} {store store' : StateStore}

theorem Reserving.hold (h : Reserving pool store) {tx : Transaction}
    (hheld : ∀ n ∈ tx.nullifiers,
      pool.pendingNullifiers[n]? = some tx.txId ∧ ¬ store.containsNullifier n)
    (hroom : pool.txs.size < MAX_MEMPOOL_SIZE ∨ pool.txs.contains tx.txId) :
    Reserving { pool with txs := pool.txs.insert tx.txId tx } store := by
  -- a pooled nullifier is reserved for its transaction, those of `tx` are for `tx`
  have hnew (id : TxId) (t : Transaction) (hid : tx.txId ≠ id) (ht : pool.txs[id]? = some t) :
      tx.nullifiers.Disjoint t.nullifiers := by
    intro n hn hn'
    obtain ⟨hpending, hunspent⟩ := hheld n hn
    rcases h.reserved id t ht n hn' with hother | hspent
    · exact hid (Option.some.inj (hpending.symm.trans hother))
    · exact hunspent hspent
  constructor
  · intro id id' t t' hne ht ht'
    exact Table.insert_pairwise List.Disjoint.symm h.conflictless hnew hne ht ht'
  · intro id t ht n hn
    obtain ⟨rfl, rfl⟩ | ⟨-, ht⟩ := Table.get_insert_eq_some.mp ht
    · exact .inl (hheld n hn).1
    · exact h.reserved id t ht n hn
  · exact Table.size_insert_le tx h.bounded hroom

omit [Blake3] in
/-- Reservations are only added. -/
theorem Reserving.reserve (h : Reserving pool store) (pending : Table Hash32 TxId)
    (hkeep : ∀ (n : Hash32) (id : TxId), pool.pendingNullifiers[n]? = some id →
      pending[n]? = some id) :
    Reserving { pool with pendingNullifiers := pending } store where
  conflictless := h.conflictless
  reserved id tx ht n hn := (h.reserved id tx ht n hn).imp_left (hkeep n id)
  bounded := h.bounded

theorem Reserving.insert (h : Reserving pool store) {pool' : PrivateMempool} {tx : Transaction}
    (hinsert : pool.insert store tx = .ok pool') : Reserving pool' store := by
  obtain ⟨hroom, -, -, -, hfresh, rfl⟩ := insert_ok_iff.mp hinsert
  have hreserved := h.reserve (pool.inserted tx).pendingNullifiers (by
    intro n id hn
    rw [get_pending_inserted, if_neg]
    · exact hn
    · intro hmem
      apply (hfresh n hmem).2
      rw [Std.ExtTreeMap.contains_eq_isSome_getElem?, hn]
      rfl)
  apply hreserved.hold
  · intro n hn
    refine ⟨?_, (hfresh n hn).1⟩
    rw [get_pending_inserted, if_pos hn]
  · exact .inl hroom

theorem Reserving.insertCall (h : Reserving pool store) (tx : Transaction) :
    Reserving (pool.insertCall store tx).1 store := by
  rw [insertCall_eq]
  cases hinsert : pool.insert store tx with
  | error e => exact h
  | ok pool' => exact h.insert hinsert

omit [Blake3] in
theorem Reserving.spent (h : Reserving pool store)
    (hspent : ∀ n : Hash32, store.containsNullifier n → store'.containsNullifier n) :
    Reserving pool store' where
  conflictless := h.conflictless
  reserved id tx ht n hn := (h.reserved id tx ht n hn).imp_right (hspent n)
  bounded := h.bounded

theorem Reserving.removeMined (h : Reserving pool store) {txs : List Transaction}
    (hspent : ∀ n ∈ txs.flatMap Transaction.nullifiers, store.containsNullifier n) :
    Reserving (pool.removeMined txs) store := by
  constructor
  · intro id id' tx tx' hne ht ht'
    exact h.conflictless id id' tx tx' hne (get_removeMined_eq_some.mp ht).2
      (get_removeMined_eq_some.mp ht').2
  · intro id tx ht n hn
    by_cases hmined : n ∈ txs.flatMap Transaction.nullifiers
    · exact .inr (hspent n hmined)
    · rw [get_pending_removeMined, if_neg hmined]
      exact h.reserved id tx (get_removeMined_eq_some.mp ht).2 n hn
  · exact (pool.size_removeMined_le txs).trans h.bounded

end PrivateMempool

/-! ## Runs -/

namespace PooledNode

variable [Blake3]

structure Sound (s : PooledNode) : Prop where
  reserving : s.pool.Reserving s.store
  spent : ∀ block ∈ s.applied, ∀ n ∈ block.nullifiers, s.store.containsNullifier n

omit [Blake3] in
theorem Sound.spend {s : PooledNode} (h : s.Sound) {store : StateStore} {applied : List Block}
    (hmono : ∀ n : Hash32, s.store.containsNullifier n → store.containsNullifier n)
    (happlied : ∀ block ∈ applied, block ∈ s.applied ∨
      ∀ n ∈ block.nullifiers, store.containsNullifier n) :
    Sound { s with store := store, applied := applied } where
  reserving := h.reserving.spent hmono
  spent := by
    intro block hblock n hn
    rcases happlied block hblock with hold | hnew
    · exact hmono n (h.spent block hold n hn)
    · exact hnew n hn

theorem Sound.step {s : PooledNode} (h : s.Sound) (op : NodeOp) (hop : s.Allows op) :
    (nodeMachine.step s op).1.Sound := by
  cases op with
  | insert tx => exact ⟨h.reserving.insertCall tx, h.spent⟩
  | removeMined block => exact ⟨h.reserving.removeMined (h.spent block hop), h.spent⟩
  | applyBlock block changes contracts =>
      have hmono (n : Hash32) (hn : s.store.containsNullifier n) :
          (s.store.applyBlock block changes contracts).1.containsNullifier n := by
        rw [← step_applyBlock_fst]
        exact containsNullifier_step hn _
      rcases applyBlock_cases s.store block changes contracts with
        ⟨haccept, happly⟩ | ⟨-, e, herror⟩
      · have hspent (n : Hash32) :
            (s.store.applyBlock block changes contracts).1.containsNullifier n ↔
              n ∈ block.nullifiers ∨ s.store.containsNullifier n :=
          containsNullifier_applyBlock haccept n
        rw [happly] at hmono hspent
        rw [nodeMachine]
        simp only [happly]
        apply h.spend hmono
        intro block' hblock
        rw [List.mem_append, List.mem_singleton] at hblock
        apply hblock.imp_right
        rintro rfl n hn
        exact (hspent n).mpr (.inl hn)
      · cases happly : s.store.applyBlock block changes contracts with
        | mk store result =>
            rw [happly] at hmono herror
            obtain rfl : result = .error e := herror
            rw [nodeMachine]
            simp only [happly]
            exact h.spend hmono fun block hblock => .inl hblock

theorem sound_final {store : StateStore} {ops : List NodeOp}
    (hops : nodeMachine.Admissible Allows { store := store } ops) :
    (nodeMachine.final { store := store } ops).Sound := by
  apply nodeMachine.invariant Sound (fun s op hop h => h.step op hop) _ hops
  exact ⟨PrivateMempool.reserving_empty store, by simp⟩

/-- From an empty pool on any store, over calls of `insert` and `apply_block`, and
of `remove_mined` for applied blocks: no two pooled transactions share a nullifier,
each of their nullifiers is reserved or on the chain, the pool is not over its size,
and a call of `insert` that fails leaves both maps as they were. -/
theorem reservation_invariant (store : StateStore) (ops : List NodeOp)
    (hops : nodeMachine.Admissible Allows { store := store } ops) :
    let s := nodeMachine.final { store := store } ops
    s.pool.Conflictless ∧
      (∀ (id : TxId) (tx : Transaction), s.pool.txs[id]? = some tx → ∀ n ∈ tx.nullifiers,
        s.pool.pendingNullifiers.contains n ∨ s.store.containsNullifier n) ∧
      s.pool.txs.size ≤ MAX_MEMPOOL_SIZE ∧
      ∀ (tx : Transaction) (e : MempoolError),
        (s.pool.insertCall s.store tx).2 = .returned (.error e) →
        (s.pool.insertCall s.store tx).1.txs = s.pool.txs ∧
          (s.pool.insertCall s.store tx).1.pendingNullifiers = s.pool.pendingNullifiers := by
  have h := sound_final hops
  refine ⟨h.reserving.conflictless, ?_, h.reserving.bounded, ?_⟩
  · intro id tx ht n hn
    apply (h.reserving.reserved id tx ht n hn).imp_left
    intro hreserved
    rw [Std.ExtTreeMap.contains_eq_isSome_getElem?, hreserved]
    rfl
  · intro tx e he
    rw [PrivateMempool.insertCall_eq] at he ⊢
    cases hinsert : PrivateMempool.insert _ _ tx with
    | error e' => exact ⟨rfl, rfl⟩
    | ok pool' =>
        rw [hinsert] at he
        cases he

end PooledNode

section

attribute [local instance] Blake3.sum

theorem payment_reservation_invariant :
    nodeMachine.Admissible PooledNode.Allows { store := StateStore.empty }
        [.insert (payment 1), .applyBlock (Block.blank 0 (fill 32 0) [payment 2]) ∅ [],
          .removeMined (Block.blank 0 (fill 32 0) [payment 2])] ∧
      (nodeMachine.final { store := StateStore.empty }
        [.insert (payment 1), .applyBlock (Block.blank 0 (fill 32 0) [payment 2]) ∅ [],
          .removeMined (Block.blank 0 (fill 32 0) [payment 2])]).pool.Conflictless := by
  have hops : nodeMachine.Admissible PooledNode.Allows { store := StateStore.empty }
      [.insert (payment 1), .applyBlock (Block.blank 0 (fill 32 0) [payment 2]) ∅ [],
        .removeMined (Block.blank 0 (fill 32 0) [payment 2])] := by decide +kernel
  exact ⟨hops, (PooledNode.reservation_invariant StateStore.empty _ hops).1⟩

end

end NoirNet
