import NoirNet.Consensus.VmCalls
import NoirNet.Proofs.Sequential

/-!
# Gas handed to the VM

A deployment is run with the gas limit of its transaction and a call with its
own, which no check looks at; no check adds up the limits of a block.

* `vmGas_eq`, `gasOf_executedCalls`: what is handed out;
* `gas_bounded_iff`: when it is within the limits.
-/

namespace NoirNet

def gasOf (requests : List VmCall) : Nat :=
  (requests.map fun request => request.ctx.gasRemaining.toNat).foldr (· + ·) 0

theorem gasOf_append (requests requests' : List VmCall) :
    gasOf (requests ++ requests') = gasOf requests + gasOf requests' := by
  induction requests with
  | nil => simp [gasOf]
  | cons request requests ih =>
      simp only [gasOf, List.cons_append, List.map_cons, List.foldr_cons] at ih ⊢
      omega

namespace Transaction

def vmGas [Blake3] (tx : Transaction) (vm : WasmRuntime) (store : StateStore) : Nat :=
  gasOf (ContractEffects.executeTransactionLogged vm store ({}, []) tx).2

/-- The gas is within the transaction's own limit, and within that of all transactions. -/
structure WithinLimits [Blake3] (tx : Transaction) (vm : WasmRuntime) (store : StateStore) :
    Prop where
  own : tx.vmGas vm store ≤ tx.gasLimit.toNat
  max : tx.vmGas vm store ≤ MAX_TX_GAS.toNat

def deployGas (tx : Transaction) : Nat := if tx.deployContract.isSome then tx.gasLimit.toNat else 0

def callGas (tx : Transaction) (store : StateStore) : Nat :=
  tx.contractCall.elim 0 fun c =>
    if (store.getContractCode c.contractId).isSome then c.gasLimit.toNat else 0

variable [Blake3]

theorem gasOf_actions {tx : Transaction} (store : StateStore)
    (hsize : ∀ code, tx.deployContract = some code → code.length ≤ MAX_CONTRACT_SIZE) :
    gasOf (tx.actions.filterMap (ContractAction.request store)) =
      tx.deployGas + tx.callGas store := by
  have hcall : gasOf ((tx.contractCall.toList.map ContractAction.call).filterMap
      (ContractAction.request store)) = tx.callGas store := by
    cases hc : tx.contractCall with
    | none => simp [gasOf, callGas, hc]
    | some c =>
        cases hcode : store.getContractCode c.contractId with
        | none => simp [gasOf, callGas, hc, hcode, ContractAction.request]
        | some code => simp [gasOf, callGas, hc, hcode, ContractAction.request]
  rw [actions, deployGas]
  cases hdeploy : tx.deployContract with
  | none =>
      rw [hcall]
      exact (Nat.zero_add _).symm
  | some bytecode =>
      have hlong : ¬ bytecode.length > MAX_CONTRACT_SIZE := Nat.not_lt.mpr (hsize _ hdeploy)
      dsimp only
      rw [if_neg hlong, ← hcall, List.filterMap_cons]
      rfl

theorem vmGas_eq {tx : Transaction} (vm : WasmRuntime) (store : StateStore)
    (hformat : tx.validateFormat = .ok ()) :
    tx.vmGas vm store = tx.deployGas + tx.callGas store := by
  obtain ⟨-, -, -, -, -, -, -, -, hsize, -⟩ := validateFormat_ok_iff.mp hformat
  rw [vmGas, ContractEffects.executeTransactionLogged_eq, List.nil_append,
    gasOf_actions store hsize]

end Transaction

section

variable [Blake3] [Nova]

/-- The limits of the deployments of a block, and of its calls for which there is code. -/
def Block.limits (block : Block) (store : StateStore) : Nat :=
  (block.transactions.map fun tx => tx.deployGas + tx.callGas store).foldr (· + ·) 0

theorem gasOf_executedCalls {isValidator : Bool} {now : UInt64} {block : Block}
    (vm : WasmRuntime) (store : StateStore) (hpass : Passes isValidator now block) :
    gasOf (executedCalls vm isValidator now store block) = block.limits store := by
  rw [executedCalls_eq vm store hpass, Block.limits]
  have hverified : ∀ tx ∈ block.transactions, verifyTransaction tx = .ok () := hpass.verified
  revert hverified
  induction block.transactions with
  | nil => exact fun _ => rfl
  | cons tx txs ih =>
      intro hverified
      obtain ⟨htx, htxs⟩ := List.forall_mem_cons.mp hverified
      obtain ⟨-, hformat⟩ := verifyTransaction_ok_iff.mp htx
      obtain ⟨-, -, -, -, -, -, -, -, hsize, -⟩ := Transaction.validateFormat_ok_iff.mp hformat
      rw [List.flatMap_cons, List.filterMap_append, gasOf_append,
        Transaction.gasOf_actions store hsize, ih htxs]
      rfl

omit [Nova] in
theorem Transaction.withinLimits_iff {tx : Transaction} (vm : WasmRuntime) (store : StateStore)
    (hformat : tx.validateFormat = .ok ()) :
    tx.WithinLimits vm store ↔
      tx.callGas store ≤ if tx.deployContract.isSome then 0 else tx.gasLimit.toNat := by
  obtain ⟨-, -, -, -, -, -, hgas, -, -, -⟩ := Transaction.validateFormat_ok_iff.mp hformat
  have hmax : tx.gasLimit.toNat ≤ MAX_TX_GAS.toNat := UInt64.le_iff_toNat_le.mp hgas
  have hgas : tx.vmGas vm store = tx.deployGas + tx.callGas store :=
    Transaction.vmGas_eq vm store hformat
  rw [Transaction.deployGas] at hgas
  by_cases hdeploy : tx.deployContract.isSome
  · rw [if_pos hdeploy] at hgas ⊢
    constructor
    · intro hlimits
      have hown := hlimits.own
      omega
    · intro hcall
      constructor
      · omega
      · omega
  · rw [if_neg hdeploy] at hgas ⊢
    constructor
    · intro hlimits
      have hown := hlimits.own
      omega
    · intro hcall
      constructor
      · omega
      · omega

theorem gasOf_executedCalls_le_iff (vm : WasmRuntime) (isValidator : Bool) (now : UInt64)
    (store : StateStore) (block : Block) :
    gasOf (executedCalls vm isValidator now store block) ≤ MAX_BLOCK_GAS.toNat ↔
      (Passes isValidator now block → block.limits store ≤ MAX_BLOCK_GAS.toNat) := by
  by_cases hpass : Passes isValidator now block
  · rw [gasOf_executedCalls vm store hpass]
    simp [hpass]
  · rw [executedCalls_of_not_passes vm store hpass]
    simp [gasOf, hpass]

/-- A transaction in the right format is executed within its own gas limit exactly
when its call, if it runs, asks for no more than the deployment leaves, and a block
within the block's limit exactly when the limits it runs with add up to no more. -/
theorem gas_bounded_iff (vm : WasmRuntime) (isValidator : Bool) (now : UInt64)
    (store : StateStore) (tx : Transaction) (block : Block) :
    ((tx.validateFormat = .ok () → tx.WithinLimits vm store) ↔
      (tx.validateFormat = .ok () →
        tx.callGas store ≤ if tx.deployContract.isSome then 0 else tx.gasLimit.toNat)) ∧
    (gasOf (executedCalls vm isValidator now store block) ≤ MAX_BLOCK_GAS.toNat ↔
      (Passes isValidator now block → block.limits store ≤ MAX_BLOCK_GAS.toNat)) := by
  constructor
  · apply imp_congr_right
    intro hformat
    exact Transaction.withinLimits_iff vm store hformat
  · exact gasOf_executedCalls_le_iff vm isValidator now store block

end

/-! ## A call without a limit, and eleven deployments -/

section

attribute [local instance] Blake3.sum Nova.rejecting

def greedyCall : Transaction :=
  { call1 with contractCall := call1.contractCall.map fun c => { c with gasLimit := 1000000000 } }

def deployments : Block :=
  contractBlock 0 (List.replicate 11 { deployment1 with gasLimit := MAX_TX_GAS })

theorem gas_unbounded :
    (¬ ∀ (vm : WasmRuntime) (store : StateStore) (tx : Transaction), tx.validateFormat = .ok () →
      tx.WithinLimits vm store) ∧
    ¬ ∀ (vm : WasmRuntime) (isValidator : Bool) (now : UInt64) (store : StateStore)
      (block : Block), gasOf (executedCalls vm isValidator now store block) ≤
        MAX_BLOCK_GAS.toNat := by
  constructor
  · intro h
    exact absurd (h counting (applyAll [contractBlock 0 [deployment1]]).1 greedyCall
      (by decide +kernel)).max (by decide +kernel)
  · intro h
    exact absurd (h counting false 0 StateStore.empty deployments) (by decide +kernel)

end

end NoirNet
