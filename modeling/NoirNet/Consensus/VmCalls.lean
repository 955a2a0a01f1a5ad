import NoirNet.Consensus.Contracts

/-!
# Calls of the VM

Phase 2 once more, with every call of `WasmRuntime::execute` written down.

* `executeTransactionLogged_eq`: the effects are those of phase 2, and the calls are
  the requests of the transaction's actions, whatever the VM returns;
* `executedCalls_eq`: the calls of a block;
* `perform_eq_record`: an action is its request and what is recorded of the answer;
* `get_foldl_perform`: the entries of the only contract that is run.
-/

namespace NoirNet

open Lib

/-- A call of `WasmRuntime::execute`. -/
structure VmCall where
  code : Bytes
  method : String
  args : Bytes
  ctx : ExecutionContext

def VmCall.run (vm : WasmRuntime) (request : VmCall) : Option ExecutionResult :=
  vm request.code request.method request.args request.ctx

namespace ContractEffects

variable [Blake3] (vm : WasmRuntime) (store : StateStore)

def deployLogged (tx : Transaction) (bytecode : Bytes) (s : ContractEffects × List VmCall) :
    ContractEffects × List VmCall :=
  let contractId := blake3Of bytecode
  let ctx :=
    { contractId
      callerCommitment := Vector.replicate 32 0
      gasRemaining := tx.gasLimit
      existingState := store.getContractStateAll contractId }
  let request : VmCall := { code := bytecode, method := "init", args := [], ctx := ctx }
  ((request.run vm).elim s.1 fun r =>
      { s.1 with newContracts := s.1.newContracts ++ [(contractId, bytecode)] }.recordChanges
        contractId r,
    s.2 ++ [request])

omit [Blake3] in
def callLogged (call : ContractCall) (s : ContractEffects × List VmCall) :
    ContractEffects × List VmCall :=
  (store.getContractCode call.contractId).elim s fun code =>
    let ctx :=
      { contractId := call.contractId
        callerCommitment := call.callerCommitment
        gasRemaining := call.gasLimit
        existingState := store.getContractStateAll call.contractId }
    let request : VmCall := { code := code, method := call.method, args := call.args, ctx := ctx }
    ((request.run vm).elim s.1 fun r => s.1.recordChanges call.contractId r, s.2 ++ [request])

/-- The body of the loop of phase 2, and the calls it makes. -/
def executeTransactionLogged (s : ContractEffects × List VmCall) (tx : Transaction) :
    ContractEffects × List VmCall :=
  let calls (s : ContractEffects × List VmCall) : ContractEffects × List VmCall :=
    tx.contractCall.elim s fun c => callLogged vm store c s
  tx.deployContract.elim (calls s) fun bytecode =>
    if bytecode.length > MAX_CONTRACT_SIZE then s
    else calls (deployLogged vm store tx bytecode s)

end ContractEffects

/-- The calls that `execute_and_apply_block` makes. -/
def executedCalls [Blake3] [Nova] (vm : WasmRuntime) (isValidator : Bool) (now : UInt64)
    (store : StateStore) (block : Block) : List VmCall :=
  if isValidator ∧ block.blsAggregateSig.isEmpty then []
  else if block.header.timestamp > now + 60 then []
  else if verifyTransactions block.transactions ≠ .ok () then []
  else (block.transactions.foldl (ContractEffects.executeTransactionLogged vm store) ({}, [])).2

/-! ## Requests -/

namespace ContractAction

variable [Blake3]

def request (store : StateStore) : ContractAction → Option VmCall
  | .deploy tx bytecode => some {
      code := bytecode
      method := "init"
      args := []
      ctx := {
        contractId := blake3Of bytecode
        callerCommitment := Vector.replicate 32 0
        gasRemaining := tx.gasLimit
        existingState := store.getContractStateAll (blake3Of bytecode) } }
  | .call c => (store.getContractCode c.contractId).map fun code => {
      code := code
      method := c.method
      args := c.args
      ctx := {
        contractId := c.contractId
        callerCommitment := c.callerCommitment
        gasRemaining := c.gasLimit
        existingState := store.getContractStateAll c.contractId } }

def result (vm : WasmRuntime) (store : StateStore) (action : ContractAction) :
    Option ExecutionResult :=
  (action.request store).bind (VmCall.run vm)

def record (action : ContractAction) (effects : ContractEffects) (r : ExecutionResult) :
    ContractEffects :=
  match action with
  | .deploy _ bytecode =>
      { effects with
        newContracts := effects.newContracts ++ [(blake3Of bytecode, bytecode)] }.recordChanges
          (blake3Of bytecode) r
  | .call c => effects.recordChanges c.contractId r

def deployed : ContractAction → List (Hash32 × Bytes)
  | .deploy _ bytecode => [(blake3Of bytecode, bytecode)]
  | .call _ => []

end ContractAction

namespace ContractEffects

variable [Blake3] (vm : WasmRuntime) (store : StateStore)

theorem deployLogged_eq (tx : Transaction) (bytecode : Bytes)
    (s : ContractEffects × List VmCall) :
    deployLogged vm store tx bytecode s =
      (s.1.deploy vm store tx bytecode,
        s.2 ++ ((ContractAction.deploy tx bytecode).request store).toList) := by
  unfold deployLogged deploy
  dsimp only
  cases hrun : vm bytecode "init" [] {
      contractId := blake3Of bytecode
      callerCommitment := Vector.replicate 32 0
      gasRemaining := tx.gasLimit
      existingState := store.getContractStateAll (blake3Of bytecode) } with
  | none => simp [VmCall.run, hrun, ContractAction.request]
  | some r => simp [VmCall.run, hrun, ContractAction.request]

theorem callLogged_eq (c : ContractCall) (s : ContractEffects × List VmCall) :
    callLogged vm store c s =
      (s.1.call vm store c, s.2 ++ ((ContractAction.call c).request store).toList) := by
  unfold callLogged call
  cases hcode : store.getContractCode c.contractId with
  | none => simp [ContractAction.request, hcode]
  | some code =>
      dsimp only [Option.elim_some]
      cases hrun : vm code c.method c.args {
          contractId := c.contractId
          callerCommitment := c.callerCommitment
          gasRemaining := c.gasLimit
          existingState := store.getContractStateAll c.contractId } with
      | none => simp [VmCall.run, hrun, ContractAction.request, hcode]
      | some r => simp [VmCall.run, hrun, ContractAction.request, hcode]

theorem executeTransactionLogged_eq (s : ContractEffects × List VmCall) (tx : Transaction) :
    executeTransactionLogged vm store s tx =
      (executeTransaction vm store s.1 tx,
        s.2 ++ tx.actions.filterMap (ContractAction.request store)) := by
  have hcalls (s : ContractEffects × List VmCall) :
      (tx.contractCall.elim s fun c => callLogged vm store c s) =
        ((tx.contractCall.toList.map ContractAction.call).foldl (perform vm store) s.1,
          s.2 ++ (tx.contractCall.toList.map ContractAction.call).filterMap
            (ContractAction.request store)) := by
    cases tx.contractCall with
    | none => simp
    | some c =>
        cases hrequest : (ContractAction.call c).request store with
        | none => simp [callLogged_eq, perform, hrequest]
        | some request => simp [callLogged_eq, perform, hrequest]
  rw [executeTransaction_eq_foldl, executeTransactionLogged, Transaction.actions]
  dsimp only
  cases tx.deployContract with
  | none => exact hcalls s
  | some bytecode =>
      dsimp only [Option.elim_some]
      by_cases hlong : bytecode.length > MAX_CONTRACT_SIZE
      · simp [hlong]
      · rw [if_neg hlong, if_neg hlong, hcalls, deployLogged_eq]
        simp [perform, ContractAction.request]

/-- The calls of a block are the requests of its actions. -/
theorem foldl_executeTransactionLogged (txs : List Transaction)
    (s : ContractEffects × List VmCall) :
    txs.foldl (executeTransactionLogged vm store) s =
      (txs.foldl (executeTransaction vm store) s.1,
        s.2 ++ (txs.flatMap Transaction.actions).filterMap (ContractAction.request store)) := by
  induction txs generalizing s with
  | nil => simp
  | cons tx txs ih =>
      rw [List.foldl_cons, List.foldl_cons, ih, executeTransactionLogged_eq, List.flatMap_cons,
        List.filterMap_append, List.append_assoc]

theorem perform_eq_record (effects : ContractEffects) (action : ContractAction) :
    perform vm store effects action =
      (action.result vm store).elim effects (action.record effects) := by
  cases action with
  | deploy tx bytecode =>
      show deploy vm store tx bytecode effects = _
      unfold deploy
      dsimp only
      split
      · rename_i r hrun
        simp [ContractAction.result, ContractAction.request, VmCall.run, hrun,
          ContractAction.record]
      · rename_i hrun
        simp [ContractAction.result, ContractAction.request, VmCall.run, hrun]
  | call c =>
      show call vm store c effects = _
      unfold call
      split
      · rename_i code hcode
        dsimp only
        split
        · rename_i r hrun
          simp [ContractAction.result, ContractAction.request, VmCall.run, hcode, hrun,
            ContractAction.record]
        · rename_i hrun
          simp [ContractAction.result, ContractAction.request, VmCall.run, hcode, hrun]
      · rename_i hcode
        simp [ContractAction.result, ContractAction.request, hcode]

end ContractEffects

/-! ## One contract's entries -/

theorem ContractAction.get_record [Blake3] (action : ContractAction) (effects : ContractEffects)
    (r : ExecutionResult) (k : Bytes) :
    (action.record effects r).contractStateChanges[action.contractId.toList ++ k]? =
      r.stateChanges[k]?.or effects.contractStateChanges[action.contractId.toList ++ k]? := by
  have hrecord (contractId : Hash32) (effects : ContractEffects) :
      (effects.recordChanges contractId r).contractStateChanges[contractId.toList ++ k]? =
        r.stateChanges[k]?.or effects.contractStateChanges[contractId.toList ++ k]? := by
    have hscope : scope contractId (contractId.toList ++ k) = some k := scope_eq_some_iff.mpr rfl
    rw [ContractEffects.get_recordChanges, hscope]
    rfl
  cases action with
  | deploy tx bytecode => exact hrecord (blake3Of bytecode) _
  | call c => exact hrecord c.contractId effects

/-- If only one contract is run, its entries behind a list of actions are those
before, with the answers laid over them in order. -/
theorem ContractEffects.get_foldl_perform [Blake3] (vm : WasmRuntime) (store : StateStore)
    {contractId : Hash32} (base : Table Bytes Bytes) {actions : List ContractAction}
    (honly : ∀ action ∈ actions, (action.request store).isSome → action.contractId = contractId)
    {effects : ContractEffects} {entries : Table Bytes Bytes}
    (h : ∀ k : Bytes, (effects.contractStateChanges[contractId.toList ++ k]?).or
      base[contractId.toList ++ k]? = entries[k]?) (k : Bytes) :
    ((actions.foldl (perform vm store) effects).contractStateChanges[contractId.toList ++ k]?).or
        base[contractId.toList ++ k]? =
      ((actions.filterMap (ContractAction.result vm store)).foldl
        (fun entries r => Table.overlay entries r.stateChanges) entries)[k]? := by
  induction actions generalizing effects entries with
  | nil => exact h k
  | cons action actions ih =>
      have hrest := fun a ha => honly a (List.mem_cons_of_mem action ha)
      rw [List.foldl_cons, perform_eq_record]
      cases hresult : action.result vm store with
      | none =>
          rw [List.filterMap_cons_none hresult]
          exact ih hrest h
      | some r =>
          have hrequest : (action.request store).isSome := by
            rw [ContractAction.result] at hresult
            obtain ⟨request, hrequest, -⟩ := Option.bind_eq_some_iff.mp hresult
            rw [hrequest]
            rfl
          rw [List.filterMap_cons_some hresult, List.foldl_cons]
          apply ih hrest
          intro k
          have hid : action.contractId = contractId := honly action List.mem_cons_self hrequest
          rw [Option.elim_some, ← hid, action.get_record, hid, Option.or_assoc, h,
            Table.get_overlay]

theorem ContractEffects.newContracts_foldl_perform [Blake3] (vm : WasmRuntime)
    (store : StateStore) (actions : List ContractAction) (effects : ContractEffects) :
    (actions.foldl (perform vm store) effects).newContracts = effects.newContracts ++
      actions.flatMap fun action =>
        (action.result vm store).elim [] fun _ => action.deployed := by
  induction actions generalizing effects with
  | nil => exact (List.append_nil _).symm
  | cons action actions ih =>
      rw [List.foldl_cons, ih, List.flatMap_cons, ← List.append_assoc, perform_eq_record]
      congr 1
      cases action.result vm store with
      | none => exact (List.append_nil _).symm
      | some r =>
          cases action with
          | deploy tx bytecode => rfl
          | call c => exact (List.append_nil _).symm

theorem executedCalls_eq [Blake3] [Nova] {isValidator : Bool} {now : UInt64} {block : Block}
    (vm : WasmRuntime) (store : StateStore) (hpass : Passes isValidator now block) :
    executedCalls vm isValidator now store block =
      (block.transactions.flatMap Transaction.actions).filterMap
        (ContractAction.request store) := by
  have hsigned : ¬ (isValidator ∧ block.blsAggregateSig.isEmpty) := by
    rintro ⟨hvalidator, hempty⟩
    exact hpass.signed hvalidator (List.isEmpty_iff.mp hempty)
  rw [executedCalls, if_neg hsigned, if_neg (UInt64.not_lt.mpr hpass.timely),
    if_neg (not_not.mpr (verifyTransactions_ok_iff.mpr hpass.verified)),
    ContractEffects.foldl_executeTransactionLogged, List.nil_append]

theorem executedCalls_of_not_passes [Blake3] [Nova] {isValidator : Bool} {now : UInt64}
    {block : Block} (vm : WasmRuntime) (store : StateStore)
    (hfail : ¬ Passes isValidator now block) :
    executedCalls vm isValidator now store block = [] := by
  unfold executedCalls
  by_cases hsigned : isValidator ∧ block.blsAggregateSig.isEmpty
  · rw [if_pos hsigned]
  · rw [if_neg hsigned]
    by_cases htimely : block.header.timestamp > now + 60
    · rw [if_pos htimely]
    · rw [if_neg htimely, if_pos]
      intro hverify
      apply hfail
      refine ⟨?_, UInt64.not_lt.mp htimely, verifyTransactions_ok_iff.mp hverify⟩
      intro hvalidator hempty
      exact hsigned ⟨hvalidator, List.isEmpty_iff.mpr hempty⟩

end NoirNet
