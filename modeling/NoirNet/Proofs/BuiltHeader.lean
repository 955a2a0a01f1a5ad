import NoirNet.Consensus.BlockBuilder
import NoirNet.Identifiers
import NoirNet.Proofs.BlockSelection

/-!
# The header of a built block

`build_block` computes the two roots from the list it is given, and the body and
`gas_used` from what its gas loop leaves of that list.

* `gasUsed_fillBlock`: the counter of the loop is the gas of the body;
* `fillBlock_eq_self_iff`: when the loop leaves the list as it is;
* `buildBlock_describes_iff`: when the header describes the body.
-/

namespace NoirNet

open Lib

/-- What a header says about the body of its block. -/
structure Block.Describes [Blake3] (block : Block) : Prop where
  txRoot : block.header.txRoot = Block.computeTxRoot block.transactions
  nullifierRoot : block.header.nullifierRoot = BlockBuilder.nullifierRoot block.transactions
  gasUsed : block.header.gasUsed.toNat = Greedy.load Transaction.gas block.transactions
  withinLimit : block.header.gasUsed ≤ MAX_BLOCK_GAS

def Transaction.ids [Blake3] (txs : List Transaction) : Bytes :=
  txs.flatMap fun tx => tx.txId.toList

namespace BlockBuilder

def Fits (txs : List Transaction) : Prop :=
  (∀ tx ∈ txs, tx.gasLimit ≤ MAX_TX_GAS) ∧
    Greedy.load Transaction.gas txs ≤ MAX_BLOCK_GAS.toNat

/-! ## The gas loop -/

theorem toNat_add_gasLimit {gasUsed : UInt64} {tx : Transaction} (hused : gasUsed ≤ MAX_BLOCK_GAS)
    (hgas : tx.gasLimit ≤ MAX_TX_GAS) :
    (gasUsed + tx.gasLimit).toNat = gasUsed.toNat + tx.gas := by
  have hused' : gasUsed.toNat ≤ 100000000 := UInt64.le_iff_toNat_le.mp hused
  have hgas' : tx.gas ≤ 10000000 := UInt64.le_iff_toNat_le.mp hgas
  exact toNat_add_gas (by omega)

theorem gasUsed_fillBlock {gasUsed : UInt64} (hused : gasUsed ≤ MAX_BLOCK_GAS)
    (txs : List Transaction) :
    (fillBlock gasUsed txs).1.toNat =
        gasUsed.toNat + Greedy.load Transaction.gas (fillBlock gasUsed txs).2 ∧
      (fillBlock gasUsed txs).1 ≤ MAX_BLOCK_GAS := by
  induction txs generalizing gasUsed with
  | nil => exact ⟨rfl, hused⟩
  | cons tx txs ih =>
      rw [fillBlock]
      by_cases hskip : tx.gasLimit > MAX_TX_GAS
      · rw [if_pos hskip]
        exact ih hused
      · rw [if_neg hskip]
        by_cases hfull : gasUsed + tx.gasLimit > MAX_BLOCK_GAS
        · rw [if_pos hfull]
          exact ⟨rfl, hused⟩
        · rw [if_neg hfull]
          obtain ⟨hsum, hlimit⟩ := ih (UInt64.not_lt.mp hfull)
          rw [toNat_add_gasLimit hused (UInt64.not_lt.mp hskip)] at hsum
          refine ⟨?_, hlimit⟩
          show (fillBlock (gasUsed + tx.gasLimit) txs).1.toNat =
            gasUsed.toNat + Greedy.load Transaction.gas (tx :: _)
          rw [Greedy.load_cons, hsum, Nat.add_assoc]

theorem fillBlock_eq_self_iff {gasUsed : UInt64} (hused : gasUsed ≤ MAX_BLOCK_GAS)
    (txs : List Transaction) :
    (fillBlock gasUsed txs).2 = txs ↔
      (∀ tx ∈ txs, tx.gasLimit ≤ MAX_TX_GAS) ∧
        gasUsed.toNat + Greedy.load Transaction.gas txs ≤ MAX_BLOCK_GAS.toNat := by
  induction txs generalizing gasUsed with
  | nil => simpa [fillBlock] using UInt64.le_iff_toNat_le.mp hused
  | cons tx txs ih =>
      rw [fillBlock, List.forall_mem_cons, Greedy.load_cons]
      by_cases hskip : tx.gasLimit > MAX_TX_GAS
      · -- the list that is left is too short
        have hshort := (fillBlock_sublist gasUsed txs).length_le
        rw [if_pos hskip]
        constructor
        · intro h
          rw [h, List.length_cons] at hshort
          omega
        · intro h
          exact absurd h.1.1 (UInt64.not_le.mpr hskip)
      · have hadd := toNat_add_gasLimit hused (UInt64.not_lt.mp hskip)
        rw [if_neg hskip]
        by_cases hfull : gasUsed + tx.gasLimit > MAX_BLOCK_GAS
        · have hnat := UInt64.lt_iff_toNat_lt.mp hfull
          rw [if_pos hfull]
          constructor
          · intro h
            cases h
          · intro h
            omega
        · rw [if_neg hfull]
          have hrest := ih (UInt64.not_lt.mp hfull)
          rw [hadd] at hrest
          show tx :: _ = tx :: txs ↔ _
          rw [List.cons.injEq, hrest, Nat.add_assoc]
          simp [UInt64.not_lt.mp hskip]

/-! ## The block -/

section

variable [Blake3] (state : StateStore) (txs : List Transaction)
  (proposer vrfOutput : Bytes32) (timestamp epoch : UInt64)

theorem transactions_buildBlock :
    (buildBlock state txs proposer vrfOutput timestamp epoch).transactions =
      (fillBlock 0 txs).2 := rfl

/-- `gas_used` is the gas of the body, whatever the list was. -/
theorem gasUsed_buildBlock :
    let block := buildBlock state txs proposer vrfOutput timestamp epoch
    block.header.gasUsed.toNat = Greedy.load Transaction.gas block.transactions ∧
      block.header.gasUsed ≤ MAX_BLOCK_GAS := by
  have hstart : (0 : UInt64) ≤ MAX_BLOCK_GAS := by decide
  have hloop := gasUsed_fillBlock hstart txs
  rwa [UInt64.toNat_zero, Nat.zero_add] at hloop

theorem transactions_buildBlock_eq_iff :
    (buildBlock state txs proposer vrfOutput timestamp epoch).transactions = txs ↔ Fits txs := by
  rw [transactions_buildBlock, fillBlock_eq_self_iff (by decide), UInt64.toNat_zero, Nat.zero_add]
  rfl

end

/-- A part of a list with the same transaction root is the whole list. -/
theorem eq_of_computeTxRoot_eq [Blake3] {txs body : List Transaction} (hsub : body.Sublist txs)
    (hfree : Blake3.CollisionFree {Transaction.ids txs, Transaction.ids body})
    (hzero : Blake3.hash (Transaction.ids txs) ≠ Hash32.ZERO)
    (hroot : Block.computeTxRoot txs = Block.computeTxRoot body) : body = txs := by
  unfold Block.computeTxRoot at hroot
  cases txs with
  | nil => exact List.sublist_nil.mp hsub
  | cons tx txs =>
      rw [if_neg (by simp)] at hroot
      cases body with
      | nil => exact absurd hroot hzero
      | cons tx' body =>
          rw [if_neg (by simp)] at hroot
          have hids := Transaction.ids_eq_of_flatMap_eq (hfree (.inl rfl) (.inr rfl) hroot)
          have hlen := congrArg List.length hids
          rw [List.length_map, List.length_map] at hlen
          exact hsub.eq_of_length hlen.symm

/-- On every store and for every list the header describes the body exactly when the gas
loop has nothing to leave out. -/
theorem buildBlock_describes_iff [Blake3] (state : StateStore) (txs : List Transaction)
    (proposer vrfOutput : Bytes32) (timestamp epoch : UInt64)
    (hfree : Blake3.CollisionFree {Transaction.ids txs, Transaction.ids (fillBlock 0 txs).2})
    (hzero : Blake3.hash (Transaction.ids txs) ≠ Hash32.ZERO) :
    (buildBlock state txs proposer vrfOutput timestamp epoch).Describes ↔ Fits txs := by
  constructor
  · intro h
    rw [← transactions_buildBlock_eq_iff state txs proposer vrfOutput timestamp epoch]
    exact eq_of_computeTxRoot_eq (fillBlock_sublist 0 txs) hfree hzero h.txRoot
  · intro h
    have hbody := (transactions_buildBlock_eq_iff state txs proposer vrfOutput timestamp
      epoch).mpr h
    obtain ⟨hgas, hlimit⟩ := gasUsed_buildBlock state txs proposer vrfOutput timestamp epoch
    refine ⟨?_, ?_, hgas, hlimit⟩
    · rw [hbody]
      rfl
    · rw [hbody]
      rfl

/-! ## One transaction over its limit -/

def greedy : Transaction :=
  { Transaction.blank [] [OutputDescription.blank (fill 32 1)] [1] with gasLimit := MAX_TX_GAS + 1 }

theorem greedy_not_described :
    letI := Blake3.successor
    ¬ (buildBlock StateStore.empty [greedy] (fill 32 0) (fill 32 0) 0 0).Describes := by
  let _ := Blake3.successor
  have hroot : (buildBlock StateStore.empty [greedy] (fill 32 0) (fill 32 0) 0 0).header.txRoot ≠
      Block.computeTxRoot (buildBlock StateStore.empty [greedy] (fill 32 0) (fill 32 0) 0
        0).transactions := by
    decide +kernel
  exact fun h => hroot h.txRoot

theorem transfer_greedy_describes_iff :
    letI := Blake3.successor
    (buildBlock StateStore.empty [payment 1, greedy] (fill 32 0) (fill 32 0) 0 0).Describes ↔
      Fits [payment 1, greedy] := by
  let _ := Blake3.successor
  have hfree : Blake3.CollisionFree {Transaction.ids [payment 1, greedy],
      Transaction.ids (fillBlock 0 [payment 1, greedy]).2} := by
    intro a ha b hb hab
    have hne : Blake3.hash (Transaction.ids [payment 1, greedy]) ≠
        Blake3.hash (Transaction.ids (fillBlock 0 [payment 1, greedy]).2) := by decide +kernel
    rcases ha with rfl | rfl <;> rcases hb with rfl | rfl
    · rfl
    · exact absurd hab hne
    · exact absurd hab.symm hne
    · rfl
  exact buildBlock_describes_iff StateStore.empty [payment 1, greedy] (fill 32 0) (fill 32 0) 0 0
    hfree (by decide +kernel)

end BlockBuilder

end NoirNet
