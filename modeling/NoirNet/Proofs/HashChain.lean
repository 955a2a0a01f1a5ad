import NoirNet.Concrete
import NoirNet.Consensus.Concrete
import NoirNet.Consensus.Outcome
import NoirNet.Storage.Archive

/-!
# The ledger as a hash chain

Builders fill in `parent_hash`; no acceptor reads it.  The blocks by height are
a chain of hashes exactly as long as every block that lands fits between its
neighbours.  The neighbour above exists only once the `u64` height has wrapped
around.
-/

namespace NoirNet

open Lib StateStore

section

variable [Blake3]

def Linked (store : StateStore) : Prop :=
  ∀ (height : UInt64) (block parent : Block), 1 ≤ height →
    store.getBlockByHeight height = some block →
    store.getBlockByHeight (height - 1) = some parent →
    block.header.parentHash = parent.blockHash

/-- The block fits in between the blocks stored below and above it. -/
structure Fits (store : StateStore) (block : Block) : Prop where
  below : ∀ parent, 1 ≤ block.header.height →
    store.getBlockByHeight (block.header.height - 1) = some parent →
    block.header.parentHash = parent.blockHash
  above : ∀ child, 1 ≤ block.header.height + 1 →
    store.getBlockByHeight (block.header.height + 1) = some child →
    child.header.parentHash = block.blockHash

/-! ## One block -/

section

variable {inputs : Set Bytes} (hfree : Blake3.CollisionFree inputs) {store : StateStore}
  {block : Block} (hindexed : Indexed inputs store) (hblock : block.header.serialize ∈ inputs)
  (haccept : store.Accepts block) (changes : Table Bytes Bytes)
  (contracts : List (Hash32 × Bytes))

include hfree hindexed hblock haccept in
/-- A block that lands on a chain leaves a chain exactly when it fits. -/
theorem linked_applyBlock_iff (hlinked : Linked store) :
    Linked (store.applyBlock block changes contracts).1 ↔ Fits store block := by
  have hget := getBlockByHeight_of_accepts hfree hindexed hblock haccept changes contracts
  have hself := getBlockByHeight_applyBlock_self haccept changes contracts
  have hpred (h : UInt64) : h ≠ h - 1 := by grind
  have hback (h : UInt64) : h + 1 - 1 = h := UInt64.add_sub_cancel h 1
  have hforth (h : UInt64) : h - 1 + 1 = h := UInt64.sub_add_cancel h 1
  constructor
  · intro hchain
    constructor
    · intro parent hpos hparent
      apply hchain block.header.height block parent hpos hself
      rw [hget, if_neg (hpred _), hparent]
    · intro child hpos hchild
      apply hchain (block.header.height + 1) child block hpos
      · have hne := hpred (block.header.height + 1)
        rw [hback] at hne
        rw [hget, if_neg hne.symm, hchild]
      · rw [hback, hself]
  · intro hfits height child parent hpos hchild hparent
    rw [hget] at hchild hparent
    by_cases hheight : block.header.height = height
    · rw [if_pos hheight] at hchild
      rw [if_neg (hheight ▸ hpred _)] at hparent
      cases hchild
      subst hheight
      exact hfits.below parent hpos hparent
    · rw [if_neg hheight] at hchild
      by_cases hbelow : block.header.height = height - 1
      · rw [if_pos hbelow] at hparent
        cases hparent
        have habove : block.header.height + 1 = height := by rw [hbelow, hforth]
        subst habove
        exact hfits.above child hpos hchild
      · rw [if_neg hbelow] at hparent
        exact hlinked height child parent hpos hchild hparent

end

/-! ## Whole runs -/

theorem StateStore.SameExceptBody.linked {store store' : StateStore}
    (h : SameExceptBody store store')
    (hlinked : Linked store) : Linked store' := by
  intro height block parent hpos hblock hparent
  rw [h.getBlockByHeight] at hblock hparent
  exact hlinked height block parent hpos hblock hparent

def ChainsOn [Nova] (s : StateStore × PrivateMempool) (e : Execution) : Prop :=
  Lands s e → Fits s.1 e.block

theorem linked_step_iff [Nova] {inputs : Set Bytes} (hfree : Blake3.CollisionFree inputs)
    {s : StateStore × PrivateMempool} {e : Execution}
    (hblock : e.block.header.serialize ∈ inputs) (hindexed : Indexed inputs s.1)
    (hlinked : Linked s.1) : Linked (executorMachine.step s e).1.1 ↔ ChainsOn s e := by
  by_cases hlands : Lands s e
  · rw [step_fst_of_lands hlands]
    have hone := linked_applyBlock_iff hfree hindexed hblock hlands.accepts
      (blockEffects e.vm s.1 e.block).contractStateChanges
      (blockEffects e.vm s.1 e.block).newContracts hlinked
    exact hone.trans ⟨fun hfits _ => hfits, fun hchains => hchains hlands⟩
  · have hsame := step_fst_of_not_lands hlands
    exact ⟨fun _ hcontra => absurd hcontra hlands, fun _ => hsame.linked hlinked⟩

theorem indexed_step [Nova] {inputs : Set Bytes} (hfree : Blake3.CollisionFree inputs)
    {s : StateStore × PrivateMempool} {e : Execution}
    (hblock : e.block.header.serialize ∈ inputs) (hindexed : Indexed inputs s.1) :
    Indexed inputs (executorMachine.step s e).1.1 := by
  by_cases hlands : Lands s e
  · rw [step_fst_of_lands hlands]
    exact indexed_applyBlock hfree hindexed hblock hlands.accepts _ _
  · exact (step_fst_of_not_lands hlands).indexed hindexed

theorem linked_empty : Linked StateStore.empty := by
  intro height block parent _ hblock
  have hnone : StateStore.empty.getBlockByHeight height = none := rfl
  rw [hnone] at hblock
  cases hblock

/-- The blocks by height are a hash chain throughout a run exactly when every
block that lands, lands where it fits. -/
theorem hash_chain_iff [Nova] (mempool : PrivateMempool) (es : List Execution)
    (hfree : Blake3.CollisionFree {bytes | ∃ e ∈ es, bytes = e.block.header.serialize}) :
    (∀ js, js <+: es → Linked (executorMachine.final (StateStore.empty, mempool) js).1) ↔
      executorMachine.Admissible ChainsOn (StateStore.empty, mempool) es := by
  have hlegal : executorMachine.Admissible (fun _ e => e.block.header.serialize ∈
      {bytes | ∃ e ∈ es, bytes = e.block.header.serialize}) (StateStore.empty, mempool) es :=
    executorMachine.admissible_of_forall (fun e he _ => ⟨e, he, rfl⟩) _
  refine executorMachine.forall_prefix_iff
    (fun s => Indexed {bytes | ∃ e ∈ es, bytes = e.block.header.serialize} s.1 ∧ Linked s.1)
    (fun s => Linked s.1) ?_ ?_ ⟨indexed_empty _, linked_empty⟩ linked_empty hlegal
  · intro s e hblock hinv hchains
    refine ⟨indexed_step hfree hblock hinv.1, ?_⟩
    exact (linked_step_iff hfree hblock hinv.1 hinv.2).mpr hchains
  · intro s e hblock hinv
    exact linked_step_iff hfree hblock hinv.1 hinv.2

end

/-! ## A block without a parent -/

section

attribute [local instance] Blake3.sum Nova.rejecting

def reading (block : Block) : Execution where
  vm := Env.blank.vm
  isValidator := false
  now := 0
  block := block

def orphanRun : List Execution :=
  [reading (emptyBlock 0 (fill 32 0)), reading (emptyBlock 1 (fill 32 0))]

theorem orphan_applied :
    (executorMachine.outputs (StateStore.empty, {}) orphanRun).map Prod.snd =
        [.applied emptyRoot, .applied emptyRoot] ∧
      ¬ Linked (executorMachine.final (StateStore.empty, {}) orphanRun).1 := by
  constructor
  · decide +kernel
  · intro hlinked
    have hparent := hlinked 1 (emptyBlock 1 (fill 32 0)) (emptyBlock 0 (fill 32 0))
      (by decide) (by decide +kernel) (by decide +kernel)
    exact absurd hparent (by decide +kernel)

def linkedRun : List Execution :=
  [reading (emptyBlock 0 (fill 32 0)),
    reading (emptyBlock 1 (emptyBlock 0 (fill 32 0)).blockHash)]

theorem linked_run_iff :
    (∀ js, js <+: linkedRun → Linked (executorMachine.final (StateStore.empty, {}) js).1) ↔
      executorMachine.Admissible ChainsOn (StateStore.empty, {}) linkedRun := by
  have hfree : Blake3.CollisionFree
      {bytes | bytes ∈ linkedRun.map fun e => e.block.header.serialize} :=
    Blake3.collisionFree_of_nodup (by decide +kernel)
  apply hash_chain_iff
  apply hfree.mono
  rintro bytes ⟨e, he, rfl⟩
  exact List.mem_map.mpr ⟨e, he, rfl⟩

end

end NoirNet
