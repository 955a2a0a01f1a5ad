import NoirNet.Proofs.Selection

/-!
# A nullifier twice in one transaction

`TxFormatError` has a variant for it that `validate_format` never raises.  The
mempool reserves the nullifier once and then finds it reserved by nobody else;
the ledger inserts it with the first spend and refuses the second.
-/

namespace NoirNet

open Lib StateStore

/-- A block of the transaction and nothing else, on a store in which none of its
nullifiers is spent. -/
structure Alone (tx : Transaction) (store : StateStore) (block : Block) : Prop where
  body : block.transactions = [tx]
  height : block.header.height = store.expectedHeight
  unspent : ∀ n ∈ tx.nullifiers, ¬ store.containsNullifier n

theorem nodup_nullifiers_iff {tx : Transaction} :
    tx.nullifiers.Nodup ↔ ∀ n, tx.nullifiers.count n < 2 := by
  rw [List.nodup_iff_count_le_one]
  exact forall_congr' fun n => Nat.lt_succ_iff.symm

section

variable [Blake3] {tx : Transaction} {store : StateStore} {block : Block}

theorem doubleSpend_of_repeated {n : Hash32} (htx : tx ∈ block.transactions)
    (hrepeated : 2 ≤ tx.nullifiers.count n) (hheight : block.header.height = store.expectedHeight)
    (changes : Table Bytes Bytes) (contracts : List (Hash32 × Bytes)) :
    (store.applyBlock block changes contracts).2 = .error .doubleSpend := by
  refine applyBlock_doubleSpend_iff.mpr ⟨hheight, ?_⟩
  rintro ⟨hnodup, -⟩
  have hone := nodup_nullifiers_iff.mp ((List.nodup_flatMap.mp hnodup).1 tx htx) n
  omega

theorem Alone.doubleSpend_iff (h : Alone tx store block) (changes : Table Bytes Bytes)
    (contracts : List (Hash32 × Bytes)) :
    (store.applyBlock block changes contracts).2 = .error .doubleSpend ↔
      ∃ n, 2 ≤ tx.nullifiers.count n := by
  constructor
  · intro herror
    by_contra hsingle
    apply (applyBlock_doubleSpend_iff.mp herror).2
    have hnullifiers : block.nullifiers = tx.nullifiers := by
      rw [Block.nullifiers, h.body]
      exact List.flatMap_singleton _ _
    rw [hnullifiers]
    refine ⟨nodup_nullifiers_iff.mpr ?_, h.unspent⟩
    intro n
    exact Nat.not_le.mp (not_exists.mp hsingle n)
  · rintro ⟨n, hrepeated⟩
    have htx : tx ∈ block.transactions := by
      rw [h.body]
      exact List.mem_singleton_self tx
    exact doubleSpend_of_repeated htx hrepeated h.height changes contracts

/-- Of every transaction, accepted or not: its nullifiers are distinct, and on its own it is
a double spend in no store in which they are unspent, exactly when none occurs in it twice;
and each such store by itself tells whether one does. -/
theorem applies_alone_iff (tx : Transaction) :
    ((tx.nullifiers.Nodup ∧
        ∀ (store : StateStore) (block : Block) (changes : Table Bytes Bytes)
          (contracts : List (Hash32 × Bytes)), Alone tx store block →
          (store.applyBlock block changes contracts).2 ≠ .error .doubleSpend) ↔
      ∀ n, tx.nullifiers.count n < 2) ∧
    ∀ (store : StateStore) (block : Block) (changes : Table Bytes Bytes)
      (contracts : List (Hash32 × Bytes)), Alone tx store block →
      ((store.applyBlock block changes contracts).2 ≠ .error .doubleSpend ↔
        ∀ n, tx.nullifiers.count n < 2) := by
  have hstores (store : StateStore) (block : Block) (changes : Table Bytes Bytes)
      (contracts : List (Hash32 × Bytes)) (h : Alone tx store block) :
      (store.applyBlock block changes contracts).2 ≠ .error .doubleSpend ↔
        ∀ n, tx.nullifiers.count n < 2 := by
    rw [ne_eq, h.doubleSpend_iff changes contracts, not_exists]
    simp only [Nat.not_le]
  refine ⟨⟨?_, ?_⟩, hstores⟩
  · rintro ⟨hnodup, -⟩
    exact nodup_nullifiers_iff.mp hnodup
  · intro hsingle
    refine ⟨nodup_nullifiers_iff.mpr hsingle, ?_⟩
    intro store block changes contracts h
    exact (hstores store block changes contracts h).mpr hsingle

end

/-! ## Two spends of one note -/

def doubled : Transaction :=
  Transaction.blank [SpendDescription.blank (fill 32 7), SpendDescription.blank (fill 32 7)]
    [OutputDescription.blank (fill 32 1)] []

theorem doubled_accepted :
    letI := Blake3.sum
    doubled.validateFormat = .ok () ∧ ¬ doubled.nullifiers.Nodup ∧
      (({} : PrivateMempool).insert StateStore.empty doubled).toBool = true ∧
      (∀ n ∈ doubled.nullifiers, ¬ StateStore.empty.containsNullifier n) ∧
      (StateStore.empty.applyBlock (Block.blank 0 (fill 32 0) [doubled]) ∅ []).2 =
        .error .doubleSpend := by
  decide +kernel

end NoirNet
