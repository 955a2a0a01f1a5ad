import Mathlib.Algebra.Order.BigOperators.Group.List
import NoirNet.Lib.Greedy
import NoirNet.Proofs.Selection

/-!
# What a selection takes and what it leaves out

`select_for_block` packs the pooled transactions greedily, dearest first.  A pool
that insertions have made is so small that the gas of all it holds fits into a
`u64`, so the counter of the loop never wraps.

* `Pooled`: the pools that `insert` and `remove_mined` make, on any stores;
* `selectForBlock_eq_pack`: the loop is the greedy packing of the library;
* `selection_sound_maximal`: what is taken is admissible, and what is left out
  does not fit beside what is at least as dear.
-/

namespace NoirNet

open Lib

def Transaction.gas (tx : Transaction) : Nat := tx.gasLimit.toNat

/-! ## Reachable pools -/

section

variable [Blake3]

/-- The pools that calls of `insert` and `remove_mined` lead to, whatever the store is at
each call. -/
inductive Pooled : PrivateMempool → Prop
  | empty : Pooled {}
  | insert {pool pool' : PrivateMempool} {store : StateStore} {tx : Transaction}
      (h : Pooled pool) (hinsert : pool.insert store tx = .ok pool') : Pooled pool'
  | removeMined {pool : PrivateMempool} (txs : List Transaction) (h : Pooled pool) :
      Pooled (pool.removeMined txs)

/-- Each transaction is in the right format and under its own id, and the pool has room
for them all. -/
structure Keyed (pool : PrivateMempool) : Prop where
  txId : ∀ {id : TxId} {tx : Transaction}, pool.txs[id]? = some tx → tx.txId = id
  format : ∀ {id : TxId} {tx : Transaction}, pool.txs[id]? = some tx → tx.validateFormat = .ok ()
  bounded : pool.txs.size ≤ MAX_MEMPOOL_SIZE

theorem size_removeMined_le (pool : PrivateMempool) (txs : List Transaction) :
    (pool.removeMined txs).txs.size ≤ pool.txs.size := by
  unfold PrivateMempool.removeMined
  induction txs generalizing pool with
  | nil => exact le_rfl
  | cons tx txs ih =>
      rw [List.foldl_cons]
      exact le_trans (ih _) Std.ExtTreeMap.size_erase_le

theorem Pooled.keyed {pool : PrivateMempool} (h : Pooled pool) : Keyed pool := by
  induction h with
  | empty =>
      have hnone {id : TxId} {tx : Transaction} : ({} : PrivateMempool).txs[id]? ≠ some tx := by
        show (∅ : Table TxId Transaction)[id]? ≠ _
        simp
      exact ⟨fun ht => absurd ht hnone, fun ht => absurd ht hnone, Nat.zero_le _⟩
  | insert h hinsert ih =>
      obtain ⟨hroom, -, hformat, -, -, rfl⟩ := PrivateMempool.insert_ok_iff.mp hinsert
      constructor
      · intro id t ht
        obtain ⟨hid, rfl⟩ | ⟨-, ht⟩ := Table.get_insert_eq_some.mp ht
        · exact hid
        · exact ih.txId ht
      · intro id t ht
        obtain ⟨-, rfl⟩ | ⟨-, ht⟩ := Table.get_insert_eq_some.mp ht
        · exact hformat
        · exact ih.format ht
      · exact Table.size_insert_le _ ih.bounded (.inl hroom)
  | removeMined txs h ih =>
      constructor
      · intro id t ht
        exact ih.txId (get_removeMined_eq_some.mp ht).2
      · intro id t ht
        exact ih.format (get_removeMined_eq_some.mp ht).2
      · exact le_trans (size_removeMined_le _ txs) ih.bounded

section

variable {pool : PrivateMempool} (h : Keyed pool)

include h

theorem Keyed.nodup_values : pool.txs.values.Nodup := by
  apply Table.pairwise_values
  rintro id id' tx tx' hne ht ht' rfl
  exact hne ((h.txId ht).symm.trans (h.txId ht'))

theorem Keyed.filter_values :
    (pool.txs.values.filter fun tx => tx.validateFormat.toBool) = pool.txs.values := by
  rw [List.filter_eq_self]
  intro tx htx
  obtain ⟨id, ht⟩ := Table.mem_values.mp htx
  rw [h.format ht]
  rfl

theorem Keyed.length_values_le : pool.txs.values.length ≤ MAX_MEMPOOL_SIZE := by
  rw [Table.values_eq, List.length_map, Std.ExtTreeMap.length_toList]
  exact h.bounded

theorem Keyed.gas_le {tx : Transaction} (htx : tx ∈ pool.txs.values) :
    tx.gas ≤ MAX_TX_GAS.toNat := by
  obtain ⟨id, ht⟩ := Table.mem_values.mp htx
  obtain ⟨-, -, -, -, -, -, hgas, -, -, -⟩ := Transaction.validateFormat_ok_iff.mp (h.format ht)
  exact UInt64.le_iff_toNat_le.mp hgas

/-- All pooled gas limits together fit into a `u64`. -/
theorem Keyed.load_values_lt : Greedy.load Transaction.gas pool.txs.values < 2 ^ 64 := by
  have hload : Greedy.load Transaction.gas pool.txs.values ≤
      pool.txs.values.length * MAX_TX_GAS.toNat := by
    have hsum := List.sum_le_card_nsmul (pool.txs.values.map Transaction.gas) MAX_TX_GAS.toNat
      (by simpa using fun tx htx => h.gas_le htx)
    rwa [List.length_map, Nat.nsmul_eq_mul] at hsum
  have hlength := h.length_values_le
  have hbound : pool.txs.values.length * MAX_TX_GAS.toNat ≤ MAX_MEMPOOL_SIZE * MAX_TX_GAS.toNat :=
    Nat.mul_le_mul_right _ hlength
  have hmax : MAX_MEMPOOL_SIZE * MAX_TX_GAS.toNat < 2 ^ 64 := by decide
  omega

end

end

/-! ## The loop -/

theorem toNat_add_gas {counter : UInt64} {tx : Transaction}
    (h : counter.toNat + tx.gas < 2 ^ 64) :
    (counter + tx.gasLimit).toNat = counter.toNat + tx.gas := by
  rw [UInt64.toNat_add]
  exact Nat.mod_eq_of_lt h

/-- While the counter does not wrap, the loop packs greedily. -/
theorem selectFrom_eq_pack (maxTxs : Nat) (maxGas : UInt64) (selected : List Transaction)
    (totalGas : UInt64) (candidates : List Transaction) (hwithin : totalGas ≤ maxGas)
    (hsmall : totalGas.toNat + Greedy.load Transaction.gas candidates < 2 ^ 64) :
    PrivateMempool.selectFrom maxTxs maxGas selected totalGas candidates =
      selected ++ Greedy.pack Transaction.gas (maxTxs - selected.length)
        (maxGas.toNat - totalGas.toNat) candidates := by
  induction candidates generalizing selected totalGas with
  | nil => rw [PrivateMempool.selectFrom, Greedy.pack_nil, List.append_nil]
  | cons tx candidates ih =>
      rw [Greedy.load_cons] at hsmall
      have hsum : (totalGas + tx.gasLimit).toNat = totalGas.toNat + tx.gas :=
        toNat_add_gas (by omega)
      rw [UInt64.le_iff_toNat_le] at hwithin
      rw [PrivateMempool.selectFrom]
      by_cases hfull : selected.length ≥ maxTxs
      · rw [if_pos hfull, Nat.sub_eq_zero_of_le hfull, Greedy.pack_zero, List.append_nil]
      rw [if_neg hfull]
      obtain ⟨left, hleft⟩ : ∃ left, maxTxs - selected.length = left + 1 :=
        ⟨maxTxs - selected.length - 1, by omega⟩
      rw [hleft, Greedy.pack]
      by_cases hgas : totalGas + tx.gasLimit > maxGas
      · rw [if_pos hgas]
        rw [gt_iff_lt, UInt64.lt_iff_toNat_lt, hsum] at hgas
        rw [if_neg (by omega), ih selected totalGas (UInt64.le_iff_toNat_le.mpr hwithin) (by omega),
          hleft]
      · rw [if_neg hgas]
        rw [gt_iff_lt, UInt64.not_lt] at hgas
        have hnat := UInt64.le_iff_toNat_le.mp hgas
        rw [hsum] at hnat
        rw [if_pos (by omega), ih (selected ++ [tx]) (totalGas + tx.gasLimit) hgas (by omega), hsum,
          List.append_assoc, List.singleton_append, List.length_append, List.length_singleton,
          Nat.sub_add_eq, hleft, Nat.add_sub_cancel, Nat.sub_add_eq]

def PrivateMempool.ordered (pool : PrivateMempool)
    (shuffle : List Transaction → List Transaction) : List Transaction :=
  (shuffle pool.txs.values).insertionSort fun a b => b.fee ≤ a.fee

section

variable {pool : PrivateMempool} {shuffle : List Transaction → List Transaction}

theorem ordered_perm (hshuffle : ∀ txs, (shuffle txs).Perm txs) :
    (pool.ordered shuffle).Perm pool.txs.values :=
  (List.perm_insertionSort _ _).trans (hshuffle _)

theorem ordered_pairwise (pool : PrivateMempool) (shuffle : List Transaction → List Transaction) :
    (pool.ordered shuffle).Pairwise fun a b => b.fee ≤ a.fee := by
  have : Std.Total fun a b : Transaction => b.fee ≤ a.fee :=
    ⟨fun a b => UInt64.le_total b.fee a.fee⟩
  have : IsTrans Transaction fun a b => b.fee ≤ a.fee :=
    ⟨fun _ _ _ hab hbc => UInt64.le_trans hbc hab⟩
  exact List.pairwise_insertionSort _ _

variable [Blake3] (h : Keyed pool) (hshuffle : ∀ txs, (shuffle txs).Perm txs)

include h hshuffle

theorem selectForBlock_eq_pack (maxTxs : Nat) (maxGas : UInt64) :
    pool.selectForBlock shuffle maxTxs maxGas =
      Greedy.pack Transaction.gas maxTxs maxGas.toNat (pool.ordered shuffle) := by
  have hsmall :
      (0 : UInt64).toNat + Greedy.load Transaction.gas (pool.ordered shuffle) < 2 ^ 64 := by
    rw [Greedy.load_perm _ (ordered_perm hshuffle)]
    exact (Nat.zero_add _).symm ▸ h.load_values_lt
  rw [PrivateMempool.selectForBlock, h.filter_values]
  show PrivateMempool.selectFrom maxTxs maxGas [] 0 (pool.ordered shuffle) = _
  rw [selectFrom_eq_pack maxTxs maxGas [] 0 _ (UInt64.zero_le) hsmall]
  rfl

end

/-! ## Soundness and maximality -/

/-- What may be asked of a selection from the pool. -/
structure SoundSelection (pool : PrivateMempool) (maxTxs : Nat) (maxGas : UInt64)
    (selected : List Transaction) : Prop where
  nodup : selected.Nodup
  pooled : ∀ tx ∈ selected, ∃ id : TxId, pool.txs[id]? = some tx
  sorted : selected.Pairwise fun a b => b.fee ≤ a.fee
  length_le : selected.length ≤ maxTxs
  gas_le : Greedy.load Transaction.gas selected ≤ maxGas.toNat
  /-- What is left out does not fit beside what is taken at its fee or a higher one. -/
  maximal : selected.length < maxTxs → ∀ (id : TxId) (tx : Transaction),
    pool.txs[id]? = some tx → tx ∉ selected →
      maxGas.toNat - Greedy.load Transaction.gas (selected.filter fun s => tx.fee ≤ s.fee) < tx.gas

/-- The part of a packing that comes from the items in front of a transaction is as dear as
the transaction. -/
theorem load_pack_front_le {front back : List Transaction} {tx : Transaction}
    (hsorted : (front ++ tx :: back).Pairwise fun a b => b.fee ≤ a.fee) (places room : Nat) :
    Greedy.load Transaction.gas (Greedy.pack Transaction.gas places room front) ≤
      Greedy.load Transaction.gas ((Greedy.pack Transaction.gas places room
        (front ++ tx :: back)).filter fun s => tx.fee ≤ s.fee) := by
  have hdear : ∀ s ∈ Greedy.pack Transaction.gas places room front, decide (tx.fee ≤ s.fee) := by
    intro s hs
    have hmem := (Greedy.pack_sublist Transaction.gas places room front).subset hs
    exact decide_eq_true ((List.pairwise_append.mp hsorted).2.2 s hmem tx List.mem_cons_self)
  rw [Greedy.pack_append, List.filter_append, List.filter_eq_self.mpr hdear, Greedy.load_append]
  exact Nat.le_add_right _ _

theorem sound_selectForBlock [Blake3] {pool : PrivateMempool} (h : Keyed pool)
    {shuffle : List Transaction → List Transaction} (hshuffle : ∀ txs, (shuffle txs).Perm txs)
    (maxTxs : Nat) (maxGas : UInt64) :
    SoundSelection pool maxTxs maxGas (pool.selectForBlock shuffle maxTxs maxGas) := by
  have hperm : (pool.ordered shuffle).Perm pool.txs.values := ordered_perm hshuffle
  have hsorted := ordered_pairwise pool shuffle
  rw [selectForBlock_eq_pack h hshuffle]
  have hsub := Greedy.pack_sublist Transaction.gas maxTxs maxGas.toNat (pool.ordered shuffle)
  constructor
  · exact (hperm.nodup_iff.mpr h.nodup_values).sublist hsub
  · intro tx htx
    exact Table.mem_values.mp (hperm.mem_iff.mp (hsub.subset htx))
  · exact hsorted.sublist hsub
  · exact Greedy.length_pack_le _ _ _ _
  · exact Greedy.load_pack_le _ _ _ _
  · intro hshort id tx ht hleft
    have hmem : tx ∈ pool.ordered shuffle := hperm.mem_iff.mpr (Table.mem_values.mpr ⟨id, ht⟩)
    obtain ⟨front, back, hsplit⟩ := List.append_of_mem hmem
    rw [hsplit] at hsorted hshort hleft ⊢
    have hfull := Greedy.load_lt_of_notMem Transaction.gas hshort hleft
    have hfront := load_pack_front_le hsorted maxTxs maxGas.toNat
    have hwithin := Greedy.load_pack_le Transaction.gas maxTxs maxGas.toNat front
    omega

/-- Of every pool that insertions have made and for every outcome of the shuffle a selection
is distinct pooled transactions, the dearest first, within both limits; and while it is short
of the first limit, what it leaves out has no room within the second beside the selected
transactions of at least its fee. -/
theorem selection_sound_maximal [Blake3] {pool : PrivateMempool} (hpool : Pooled pool)
    {shuffle : List Transaction → List Transaction} (hshuffle : ∀ txs, (shuffle txs).Perm txs)
    (maxTxs : Nat) (maxGas : UInt64) :
    SoundSelection pool maxTxs maxGas (pool.selectForBlock shuffle maxTxs maxGas) :=
  sound_selectForBlock hpool.keyed hshuffle maxTxs maxGas

theorem pooled_payment :
    letI := Blake3.sum
    Pooled (({} : PrivateMempool).inserted (payment 1)) := by
  let _ := Blake3.sum
  have hinsert : ({} : PrivateMempool).insert StateStore.empty (payment 1) =
      .ok (({} : PrivateMempool).inserted (payment 1)) := by
    apply PrivateMempool.insert_ok_iff.mpr
    refine ⟨by decide, by decide +kernel, by decide +kernel, by decide, by decide +kernel, rfl⟩
  exact .insert .empty hinsert

def PrivateMempool.ofInserts [Blake3] (txs : List Transaction) : PrivateMempool :=
  txs.foldl (fun pool tx => (pool.insert StateStore.empty tx).toOption.getD pool) {}

theorem pooled_ofInserts [Blake3] (txs : List Transaction) :
    Pooled (PrivateMempool.ofInserts txs) := by
  induction txs using List.reverseRecOn with
  | nil => exact .empty
  | append_singleton txs tx ih =>
      rw [PrivateMempool.ofInserts, List.foldl_append]
      show Pooled (((PrivateMempool.ofInserts txs).insert StateStore.empty tx).toOption.getD
        (PrivateMempool.ofInserts txs))
      cases hinsert : (PrivateMempool.ofInserts txs).insert StateStore.empty tx with
      | ok pool => exact ih.insert hinsert
      | error e => exact ih

def priced (nullifier : UInt8) (fee gasLimit : UInt64) : Transaction :=
  { Transaction.blank [SpendDescription.blank ((fill 31 0).push nullifier)]
      [OutputDescription.blank (fill 32 1)] [] with fee, gasLimit }

theorem transfers_selected :
    letI := Blake3.sum
    SoundSelection (PrivateMempool.ofInserts [priced 1 10000 3, priced 2 1000000 5,
      priced 3 100000 4]) 10000 8 [priced 2 1000000 5, priced 1 10000 3] := by
  let _ := Blake3.sum
  have hsound := selection_sound_maximal (pooled_ofInserts [priced 1 10000 3, priced 2 1000000 5,
    priced 3 100000 4]) (fun _ => .refl _) 10000 8
  have hselected : (PrivateMempool.ofInserts [priced 1 10000 3, priced 2 1000000 5,
      priced 3 100000 4]).selectForBlock (fun txs => txs) 10000 8 =
        [priced 2 1000000 5, priced 1 10000 3] := by
    decide +kernel
  rwa [hselected] at hsound

end NoirNet
