import NoirNet.Proofs.Sequential

/-!
# Contracts that a block leaves alone

All contracts share one table, under keys that begin with the contract's id.
Both ways to read it agree, and a block leaves the entries of the contracts its
transactions do not touch as they were.

* `agree_applyExecuted`: one block, whatever comes of it;
* `agree_final`: a run of them;
* `contract_state_isolated`: what the reads return.
-/

namespace NoirNet

open Lib ContractEffects StateStore

theorem StateStore.SameExceptBody.agree {store store' : StateStore}
    (h : SameExceptBody store store')
    (contractId : Hash32) : Agree contractId store' store := by
  obtain ⟨_, _, _, _, _, hbody⟩ := h
  rw [hbody]
  exact ⟨rfl, fun _ => rfl⟩

section

variable [Blake3]

def Block.LeavesAlone (block : Block) (contractId : Hash32) : Prop :=
  ∀ tx ∈ block.transactions, contractId ∉ tx.touches

instance (block : Block) (contractId : Hash32) : Decidable (block.LeavesAlone contractId) :=
  inferInstanceAs (Decidable (∀ tx ∈ block.transactions, contractId ∉ tx.touches))

theorem spares_blockEffects (vm : WasmRuntime) (store : StateStore) {block : Block}
    {contractId : Hash32} (halone : block.LeavesAlone contractId) :
    (blockEffects vm store block).Spares contractId := by
  have hempty : ({} : ContractEffects).Spares contractId := ⟨by simp, by simp⟩
  rw [blockEffects, foldl_executeTransaction]
  apply hempty.foldl_perform
  rintro action haction - rfl
  obtain ⟨tx, htx, hactions⟩ := List.mem_flatMap.mp haction
  exact halone tx htx (List.mem_map_of_mem hactions)

theorem agree_applyExecuted (vm : WasmRuntime) {store : StateStore} {block : Block}
    {contractId : Hash32} (haccept : store.Accepts block) (halone : block.LeavesAlone contractId) :
    Agree contractId (applyExecuted vm store block).1 store := by
  have hsame := (sameContracts_applyExecuted vm haccept).agree contractId
  have hspared := agree_commitEffects (spares_blockEffects vm store halone) store
  constructor
  · exact hsame.code.trans hspared.code
  · intro k
    exact (hsame.entries k).trans (hspared.entries k)

variable [Nova]

/-- A block leaves alone every contract that its transactions do not touch, whether it
is rejected, fails or is applied. -/
theorem agree_step {s : StateStore × PrivateMempool} {e : Execution} {contractId : Hash32}
    (halone : e.block.LeavesAlone contractId) :
    Agree contractId (executorMachine.step s e).1.1 s.1 := by
  by_cases hlands : Lands s e
  · rw [step_fst_of_lands hlands]
    exact agree_applyExecuted e.vm hlands.accepts halone
  · exact (step_fst_of_not_lands hlands).agree contractId

theorem agree_final {s : StateStore × PrivateMempool} {es : List Execution} {contractId : Hash32}
    (halone : ∀ e ∈ es, e.block.LeavesAlone contractId) :
    Agree contractId (executorMachine.final s es).1 s.1 := by
  induction es generalizing s with
  | nil => exact ⟨rfl, fun _ => rfl⟩
  | cons e es ih =>
      rw [Machine.final_cons]
      have hhead := agree_step (s := s) (halone e List.mem_cons_self)
      have htail := ih (s := (executorMachine.step s e).1) fun e' he' =>
        halone e' (List.mem_cons_of_mem _ he')
      exact ⟨htail.code.trans hhead.code, fun k => (htail.entries k).trans (hhead.entries k)⟩

/-- The two ways to read the state of a contract agree, and a run of blocks whose
transactions do not touch the contract changes neither. -/
theorem contract_state_isolated (store : StateStore) (contractId : Hash32) :
    (∀ k : Bytes,
        (store.getContractStateAll contractId)[k]? = store.getContractState contractId k) ∧
      ∀ (mempool : PrivateMempool) (es : List Execution),
        (∀ e ∈ es, e.block.LeavesAlone contractId) →
        let store' := (executorMachine.final (store, mempool) es).1
        store'.getContractStateAll contractId = store.getContractStateAll contractId ∧
          ∀ k : Bytes,
            store'.getContractState contractId k = store.getContractState contractId k := by
  constructor
  · exact get_getContractStateAll store contractId
  · intro mempool es halone store'
    have hagree := agree_final (s := (store, mempool)) halone
    exact ⟨hagree.getContractStateAll, hagree.entries⟩

end

/-! ## A deployment next to a contract -/

section

attribute [local instance] Blake3.sum Nova.rejecting

def counted : StateStore :=
  (applyAll [contractBlock 0 [deployment1], contractBlock 1 [call1]]).1

theorem counted_isolated :
    let deployment2 : Transaction :=
      { Transaction.blank [] [] [] with deployContract := some [2] }
    let e := executionOf counting false 0 (contractBlock 2 [deployment2])
    e.block.LeavesAlone (blake3Of [1]) ∧
      (executorMachine.final (counted, {}) [e]).1.getContractState (blake3Of [1]) [] =
        counted.getContractState (blake3Of [1]) [] := by
  intro deployment2 e
  have halone : e.block.LeavesAlone (blake3Of [1]) := by decide +kernel
  exact ⟨halone, ((contract_state_isolated counted (blake3Of [1])).2 {} [e]
    (List.forall_mem_singleton.mpr halone)).2 []⟩

end

end NoirNet
