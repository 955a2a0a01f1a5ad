import NoirNet.Proofs.BuiltHeader

/-!
# The size of a proposal

A selection is bounded in number and in gas, and no gas is counted for bytes.  A
receiver drops what is longer than `MAX_P2P_MESSAGE_SIZE`.

* `length_serialize_buildBlock`: the bytes of a built block;
* `selectForBlock_membersFirst`: every saturated set of pooled transactions is selected by some
  outcome of the shuffle;
* `proposal_fits_iff`: when every proposal from a pool fits.
-/

namespace NoirNet

open Lib

/-- Pooled transactions that fit into one block, and beside which nothing else that is
pooled does: no transaction left out fits beside those of at least its fee. -/
structure Saturated (pool : PrivateMempool) (s : List Transaction) : Prop where
  nodup : s.Nodup
  pooled : s ⊆ pool.txs.values
  gas_le : Greedy.load Transaction.gas s ≤ MAX_BLOCK_GAS.toNat
  full : ∀ tx ∈ pool.txs.values, tx ∉ s →
    MAX_BLOCK_GAS.toNat < tx.gas + Greedy.load Transaction.gas (s.filter fun t => tx.fee ≤ t.fee)

/-! ## What a block takes on the wire -/

theorem BlockHeader.length_serialize (header : BlockHeader) : header.serialize.length = 236 := by
  simp [serialize]

theorem length_putTransactions (txs : List Transaction) :
    (Wire.putVec Transaction.serialize txs).length =
      8 + Greedy.load Transaction.serializedSize txs := by
  rw [Wire.putVec, List.length_append, Wire.length_leBytes, List.length_flatMap]
  rfl

namespace BlockBuilder

theorem length_serialize_buildBlock [Blake3] (state : StateStore) (txs : List Transaction)
    (proposer vrfOutput : Bytes32) (timestamp epoch : UInt64) :
    (buildBlock state txs proposer vrfOutput timestamp epoch).serialize.length =
      268 + Greedy.load Transaction.serializedSize (fillBlock 0 txs).2 := by
  have hempty : (Wire.putBytes []).length = 8 := by decide
  rw [Block.serialize, List.length_append, List.length_append, List.length_append,
    List.length_append, BlockHeader.length_serialize, length_putTransactions, Wire.length_putU64]
  show 236 + (8 + Greedy.load Transaction.serializedSize (fillBlock 0 txs).2 +
    ((Wire.putBytes []).length + ((Wire.putBytes []).length + 8))) = _
  rw [hempty]
  omega

end BlockBuilder

/-! ## Selections are saturated -/

section

variable [Blake3] {pool : PrivateMempool} (h : Keyed pool)

include h

/-- The builder leaves a selection as it is. -/
theorem fits_of_saturated {s : List Transaction} (hs : Saturated pool s) : BlockBuilder.Fits s :=
  ⟨fun _ htx => UInt64.le_iff_toNat_le.mpr (h.gas_le (hs.pooled htx)), hs.gas_le⟩

theorem length_serialize_proposal {s : List Transaction} (hs : Saturated pool s)
    (state : StateStore) (proposer vrfOutput : Bytes32) (timestamp epoch : UInt64) :
    (BlockBuilder.buildBlock state s proposer vrfOutput timestamp epoch).serialize.length =
      268 + Greedy.load Transaction.serializedSize s := by
  have hbody := (BlockBuilder.transactions_buildBlock_eq_iff state s proposer vrfOutput timestamp
    epoch).mpr (fits_of_saturated h hs)
  rw [BlockBuilder.length_serialize_buildBlock]
  rw [BlockBuilder.transactions_buildBlock] at hbody
  rw [hbody]

theorem length_lt_of_notMem {s : List Transaction} (hnodup : s.Nodup)
    (hpooled : s ⊆ pool.txs.values) {tx : Transaction} (htx : tx ∈ pool.txs.values)
    (hleft : tx ∉ s) : s.length < MAX_MEMPOOL_SIZE := by
  have hsub : (tx :: s).Subperm pool.txs.values :=
    List.subperm_of_subset (List.nodup_cons.mpr ⟨hleft, hnodup⟩)
      (List.cons_subset.mpr ⟨htx, hpooled⟩)
  have hlen := hsub.length_le
  have hmax := h.length_values_le
  rw [List.length_cons] at hlen
  omega

theorem saturated_selection {shuffle : List Transaction → List Transaction}
    (hshuffle : ∀ txs, (shuffle txs).Perm txs) :
    Saturated pool (pool.selectForBlock shuffle MAX_MEMPOOL_SIZE MAX_BLOCK_GAS) := by
  have hsound := sound_selectForBlock h hshuffle MAX_MEMPOOL_SIZE MAX_BLOCK_GAS
  have hpooled : pool.selectForBlock shuffle MAX_MEMPOOL_SIZE MAX_BLOCK_GAS ⊆ pool.txs.values :=
    fun tx htx => Table.mem_values.mpr (hsound.pooled tx htx)
  refine ⟨hsound.nodup, hpooled, hsound.gas_le, ?_⟩
  intro tx htx hleft
  obtain ⟨id, hid⟩ := Table.mem_values.mp htx
  have hfull := hsound.maximal (length_lt_of_notMem h hsound.nodup hpooled htx hleft) id tx hid
    hleft
  omega

end

/-! ## Every saturated set is selected -/

def membersFirst (s txs : List Transaction) : List Transaction :=
  txs.filter (· ∈ s) ++ txs.filter fun tx => ¬ tx ∈ s

theorem membersFirst_perm (s txs : List Transaction) : (membersFirst s txs).Perm txs := by
  have hperm := List.filter_append_perm (fun tx => decide (tx ∈ s)) txs
  simpa only [membersFirst, decide_not] using hperm

theorem mem_of_pair_sublist {α : Type*} {front back : List α} {a b : α}
    (hnodup : (front ++ b :: back).Nodup) (hpair : [a, b].Sublist (front ++ b :: back)) :
    a ∈ front := by
  obtain ⟨xs, ys, hsplit, hxs, hys⟩ := List.sublist_append_iff.mp hpair
  cases xs with
  | cons x xs =>
      rw [List.cons_append, List.cons.injEq] at hsplit
      exact hxs.subset (hsplit.1 ▸ List.mem_cons_self)
  | nil =>
      -- otherwise the second is behind itself
      rw [List.nil_append] at hsplit
      subst hsplit
      obtain ⟨-, hback, -⟩ := List.nodup_append.mp hnodup
      have hb : b ∈ back := hys.tail.subset (by simp)
      exact absurd hb (List.nodup_cons.mp hback).1

section

variable [Blake3] {pool : PrivateMempool} (h : Keyed pool)

include h

/-- A member stands in front of everything that is not dearer and not in the set: the sort
is stable. -/
theorem mem_front {s front back : List Transaction} {tx t : Transaction}
    (hpooled : s ⊆ pool.txs.values) (hsplit : pool.ordered (membersFirst s) = front ++ tx :: back)
    (hleft : tx ∉ s) (ht : t ∈ s) (hfee : tx.fee ≤ t.fee) : t ∈ front := by
  have hmem (a : Transaction) : a ∈ pool.txs.values ↔ a ∈ pool.ordered (membersFirst s) :=
    (ordered_perm (membersFirst_perm s)).mem_iff.symm
  have htx : tx ∈ pool.txs.values := (hmem tx).mpr (hsplit ▸ by simp)
  have hpair : [t, tx].Sublist (pool.ordered (membersFirst s)) := by
    refine List.pair_sublist_insertionSort (r := fun a b : Transaction => b.fee ≤ a.fee) hfee ?_
    have hfront : [t].Sublist (pool.txs.values.filter (· ∈ s)) :=
      List.singleton_sublist.mpr (List.mem_filter.mpr ⟨hpooled ht, decide_eq_true ht⟩)
    have hback : [tx].Sublist (pool.txs.values.filter fun a => ¬ a ∈ s) :=
      List.singleton_sublist.mpr (List.mem_filter.mpr ⟨htx, decide_eq_true hleft⟩)
    exact hfront.append hback
  have hnodup : (pool.ordered (membersFirst s)).Nodup :=
    (ordered_perm (membersFirst_perm s)).nodup_iff.mpr h.nodup_values
  rw [hsplit] at hpair hnodup
  exact mem_of_pair_sublist hnodup hpair

theorem selectForBlock_membersFirst {s : List Transaction} (hs : Saturated pool s) :
    (pool.selectForBlock (membersFirst s) MAX_MEMPOOL_SIZE MAX_BLOCK_GAS).Perm s := by
  have hperm : (pool.ordered (membersFirst s)).Perm pool.txs.values :=
    ordered_perm (membersFirst_perm s)
  have hnodup : (pool.ordered (membersFirst s)).Nodup := hperm.nodup_iff.mpr h.nodup_values
  have hmembers : ((pool.ordered (membersFirst s)).filter (· ∈ s)).Perm s := by
    rw [List.perm_ext_iff_of_nodup (hnodup.filter _) hs.nodup]
    intro tx
    rw [List.mem_filter, hperm.mem_iff, decide_eq_true_iff]
    exact ⟨And.right, fun htx => ⟨hs.pooled htx, htx⟩⟩
  have hlast {front back : List Transaction} {tx : Transaction}
      (hsplit : pool.ordered (membersFirst s) = front ++ tx :: back) (hleft : tx ∉ s) :
      MAX_BLOCK_GAS.toNat < tx.gas + Greedy.load Transaction.gas (front.filter (· ∈ s)) := by
    have htx : tx ∈ pool.txs.values := hperm.mem_iff.mp (hsplit ▸ by simp)
    have hfull := hs.full tx htx hleft
    have hdear : (s.filter fun t => tx.fee ≤ t.fee).Subperm (front.filter (· ∈ s)) := by
      apply List.subperm_of_subset (hs.nodup.filter _)
      intro t ht
      obtain ⟨hmem, hfee⟩ := List.mem_filter.mp ht
      have hfront := mem_front h hs.pooled hsplit hleft hmem (of_decide_eq_true hfee)
      exact List.mem_filter.mpr ⟨hfront, decide_eq_true hmem⟩
    have hload := Greedy.load_subperm Transaction.gas hdear
    omega
  rw [selectForBlock_eq_pack h (membersFirst_perm s),
    Greedy.pack_eq_filter Transaction.gas (p := (· ∈ s))]
  · exact hmembers
  · rw [hmembers.length_eq]
    have hlen := (List.subperm_of_subset hs.nodup hs.pooled).length_le
    exact hlen.trans h.length_values_le
  · rw [Greedy.load_perm _ hmembers]
    exact hs.gas_le
  · intro front tx back hsplit hleft
    exact hlast hsplit hleft

end

/-- From every pool that insertions have made every proposal, whatever the shuffle and the
store it is built on, fits into one message, exactly when every saturated set of pooled
transactions does with the 268 bytes that the rest of a block takes. -/
theorem proposal_fits_iff [Blake3] {pool : PrivateMempool} (hpool : Pooled pool) :
    (∀ shuffle : List Transaction → List Transaction, (∀ txs, (shuffle txs).Perm txs) →
      ∀ (state : StateStore) (proposer vrfOutput : Bytes32) (timestamp epoch : UInt64),
        (BlockBuilder.buildBlock state (pool.selectForBlock shuffle 10000 MAX_BLOCK_GAS) proposer
          vrfOutput timestamp epoch).serialize.length ≤ MAX_P2P_MESSAGE_SIZE) ↔
      ∀ s, Saturated pool s →
        268 + Greedy.load Transaction.serializedSize s ≤ MAX_P2P_MESSAGE_SIZE := by
  have h := hpool.keyed
  constructor
  · intro hfits s hs
    have hblock := hfits (membersFirst s) (membersFirst_perm s) StateStore.empty (fill 32 0)
      (fill 32 0) 0 0
    have hlen := length_serialize_proposal h (saturated_selection h (membersFirst_perm s))
      StateStore.empty (fill 32 0) (fill 32 0) 0 0
    rw [Greedy.load_perm _ (selectForBlock_membersFirst h hs)] at hlen
    exact hlen.symm.trans_le hblock
  · intro hsizes shuffle hshuffle state proposer vrfOutput timestamp epoch
    have hs := saturated_selection h hshuffle
    have hlen := length_serialize_proposal h hs state proposer vrfOutput timestamp epoch
    exact hlen.trans_le (hsizes _ hs)

def elevenTransfers : List Transaction :=
  (List.range 11).map fun i => priced (.ofNat i) (if i < 10 then 100000 else 10000) MAX_TX_GAS

theorem transfers_fit :
    letI := Blake3.sum
    let pool := PrivateMempool.ofInserts elevenTransfers
    pool.selectForBlock (fun txs => txs) 10000 MAX_BLOCK_GAS = elevenTransfers.take 10 ∧
      ∀ shuffle : List Transaction → List Transaction, (∀ txs, (shuffle txs).Perm txs) →
        ∀ (state : StateStore) (proposer vrfOutput : Bytes32) (timestamp epoch : UInt64),
          (BlockBuilder.buildBlock state (pool.selectForBlock shuffle 10000 MAX_BLOCK_GAS) proposer
            vrfOutput timestamp epoch).serialize.length ≤ MAX_P2P_MESSAGE_SIZE := by
  let _ := Blake3.sum
  obtain ⟨hselected, hsize⟩ :
      (PrivateMempool.ofInserts elevenTransfers).selectForBlock (fun txs => txs) 10000
          MAX_BLOCK_GAS = elevenTransfers.take 10 ∧
        Greedy.load Transaction.serializedSize
          (PrivateMempool.ofInserts elevenTransfers).txs.values = 11 * 424 := by
    decide +kernel
  refine ⟨hselected, (proposal_fits_iff (pooled_ofInserts elevenTransfers)).mpr ?_⟩
  intro s hs
  have hwhole := Greedy.load_subperm Transaction.serializedSize
    (List.subperm_of_subset hs.nodup hs.pooled)
  have hbound : 268 + 11 * 424 ≤ MAX_P2P_MESSAGE_SIZE := by decide
  omega

/-! ## One transaction of the largest size -/

def bulky (n : Nat) : Transaction :=
  Transaction.blank [SpendDescription.blank (fill 32 7)]
    [{ OutputDescription.blank (fill 32 1) with encCiphertext := List.replicate n 0 }] []

theorem length_putBytes (bs : Bytes) : (Wire.putBytes bs).length = 8 + bs.length := by
  rw [Wire.putBytes, Wire.putVec, List.length_append, Wire.length_leBytes, List.length_flatMap]
  simp

theorem length_putVec_singleton {α : Type} (put : α → Bytes) (a : α) :
    (Wire.putVec put [a]).length = 8 + (put a).length := by
  rw [Wire.putVec, List.length_append, Wire.length_leBytes, List.flatMap_singleton]

theorem serializedSize_bulky (n : Nat) : (bulky n).serializedSize = 424 + n := by
  have hspends : (Wire.putVec SpendDescription.serialize (bulky n).spends).length = 200 := by
    rw [bulky, Transaction.blank, length_putVec_singleton, SpendDescription.serialize]
    simp only [List.length_append, Vector.length_toList]
  have houtputs : (Wire.putVec OutputDescription.serialize (bulky n).outputs).length = 120 + n := by
    rw [bulky, Transaction.blank, length_putVec_singleton, OutputDescription.serialize]
    simp only [List.length_append, Vector.length_toList, length_putBytes, List.length_replicate]
    simp only [OutputDescription.blank, List.length_nil]
    omega
  have hproof : (Wire.putBytes (bulky n).aggregateSpendProof).length = 8 := length_putBytes []
  have hmemo : (Wire.putOption EncryptedMemo.serialize (bulky n).memo).length = 1 := rfl
  have hcall : (Wire.putOption ContractCall.serialize (bulky n).contractCall).length = 1 := rfl
  have hdeploy : (Wire.putOption Wire.putBytes (bulky n).deployContract).length = 1 := rfl
  simp only [Transaction.serializedSize, Transaction.serialize, List.length_append, hspends,
    houtputs, hproof, hmemo, hcall, hdeploy, Wire.length_putU32, Wire.length_putU64,
    Vector.length_toList, List.length_singleton]
  omega

section

variable [Blake3] {n : Nat} (hsize : 424 + n ≤ MAX_P2P_MESSAGE_SIZE)

include hsize

omit [Blake3] in
theorem validateFormat_bulky : (bulky n).validateFormat = .ok () := by
  apply Transaction.validateFormat_ok_iff.mpr
  refine ⟨rfl, ?_, ?_, ?_, ?_, ?_, ?_, rfl, ?_, ?_⟩
  · simp [bulky, Transaction.blank]
  · simp [bulky, Transaction.blank]
  · simp [bulky, Transaction.blank, MAX_SPENDS_PER_TX]
  · simp [bulky, Transaction.blank, MAX_OUTPUTS_PER_TX]
  · show MIN_FEE ∈ FEE_TIERS
    decide
  · show (0 : UInt64) ≤ MAX_TX_GAS
    decide
  · intro code hcode
    cases hcode
  · rw [serializedSize_bulky]
    exact hsize

theorem pooled_bulky : Pooled (({} : PrivateMempool).inserted (bulky n)) := by
  have hinsert : ({} : PrivateMempool).insert StateStore.empty (bulky n) =
      .ok (({} : PrivateMempool).inserted (bulky n)) := by
    apply PrivateMempool.insert_ok_iff.mpr
    refine ⟨?_, ?_, validateFormat_bulky hsize, ?_, ?_, rfl⟩
    · decide
    · show (∅ : Table TxId Transaction)[_]? = none
      simp
    · show MIN_FEE ≤ MIN_FEE
      exact UInt64.le_refl _
    · show ∀ n ∈ [fill 32 7], _
      decide +kernel
  exact .insert .empty hinsert

omit hsize in
theorem mem_values_bulky {tx : Transaction} :
    tx ∈ (({} : PrivateMempool).inserted (bulky n)).txs.values ↔ tx = bulky n := by
  rw [Table.mem_values]
  constructor
  · rintro ⟨id, ht⟩
    obtain ⟨-, rfl⟩ | ⟨-, ht⟩ := Table.get_insert_eq_some.mp ht
    · rfl
    · have hnone : (∅ : Table TxId Transaction)[id]? = some tx := ht
      simp at hnone
  · rintro rfl
    exact ⟨(bulky n).txId, by rw [PrivateMempool.get_inserted, if_pos rfl]⟩

omit hsize in
theorem saturated_bulky : Saturated (({} : PrivateMempool).inserted (bulky n)) [bulky n] where
  nodup := List.nodup_singleton _
  pooled := by
    intro tx htx
    exact mem_values_bulky.mpr (List.mem_singleton.mp htx)
  gas_le := Nat.zero_le _
  full := by
    intro tx htx hleft
    exact absurd (List.mem_singleton.mpr (mem_values_bulky.mp htx)) hleft

end

theorem bulky_proposal_oversized :
    letI := Blake3.sum
    let pool := ({} : PrivateMempool).inserted (bulky 10485336)
    Pooled pool ∧ ∃ shuffle : List Transaction → List Transaction,
      (∀ txs, (shuffle txs).Perm txs) ∧
        (BlockBuilder.buildBlock StateStore.empty (pool.selectForBlock shuffle 10000 MAX_BLOCK_GAS)
          (fill 32 0) (fill 32 0) 0 0).serialize.length = MAX_P2P_MESSAGE_SIZE + 268 := by
  let _ := Blake3.sum
  have hpool := pooled_bulky (n := 10485336) (by decide)
  refine ⟨hpool, membersFirst [bulky 10485336], membersFirst_perm _, ?_⟩
  have hselected := selectForBlock_membersFirst hpool.keyed saturated_bulky
  have hlen := length_serialize_proposal hpool.keyed
    (saturated_selection hpool.keyed (membersFirst_perm [bulky 10485336])) StateStore.empty
    (fill 32 0) (fill 32 0) 0 0
  rw [Greedy.load_perm _ hselected, Greedy.load_cons, serializedSize_bulky] at hlen
  exact hlen

end NoirNet
