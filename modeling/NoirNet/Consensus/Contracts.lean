import NoirNet.Consensus.Outcome
import NoirNet.Lib.Overlay

/-!
# The contracts of a block

Phase 2 runs every transaction on the committed store and collects what the
contracts write.  What a transaction reads is the code and the entries of the
contracts it names; what it writes is laid over what was collected before.

* `get_getContractStateAll`, `get_recordChanges`: entries under a prefix;
* `perform_eq_append`: what an action adds is independent of what was collected;
* `perform_congr`: and depends only on the contract it is about;
* `Spares.perform`: other contracts are spared.
-/

namespace NoirNet

open Lib

/-! ## Entries under a prefix -/

/-- The contract's own key behind a composite key. -/
def scope (contractId : Hash32) (key : Bytes) : Option Bytes :=
  if contractId.toList.isPrefixOf key then some (key.drop 32) else none

theorem scope_eq_some_iff {contractId : Hash32} {key k : Bytes} :
    scope contractId key = some k ↔ key = contractId.toList ++ k := by
  have hlen : contractId.toList.length = 32 := contractId.length_toList
  unfold scope
  constructor
  · intro h
    split at h
    · rename_i hprefix
      obtain ⟨suffix, rfl⟩ := List.isPrefixOf_iff_prefix.mp hprefix
      rw [List.drop_left' hlen] at h
      rw [Option.some.inj h]
    · cases h
  · rintro rfl
    rw [if_pos (List.isPrefixOf_iff_prefix.mpr (List.prefix_append _ _)), List.drop_left' hlen]

theorem get_getContractStateAll (store : StateStore) (contractId : Hash32) (k : Bytes) :
    (store.getContractStateAll contractId)[k]? =
      store.db.contractState[contractId.toList ++ k]? := by
  have heq : store.getContractStateAll contractId =
      Table.insertAll (scope contractId) store.db.contractState ∅ := by
    rw [StateStore.getContractStateAll, Std.ExtTreeMap.foldl_eq_foldl_toList, Table.insertAll]
    congr
    ext t entry
    unfold Table.put scope
    split <;> rfl
  rw [heq, Table.get_insertAll ∅ (k := contractId.toList ++ k) _ (scope_eq_some_iff.mpr rfl)]
  · simp
  · intro key key' h h'
    rw [scope_eq_some_iff.mp h, scope_eq_some_iff.mp h']

namespace ContractEffects

theorem get_recordChanges (effects : ContractEffects) (contractId : Hash32) (r : ExecutionResult)
    (key : Bytes) :
    (effects.recordChanges contractId r).contractStateChanges[key]? =
      ((scope contractId key).bind (r.stateChanges[·]?)).or
        effects.contractStateChanges[key]? := by
  have heq : (effects.recordChanges contractId r).contractStateChanges =
      Table.insertAll (fun k => some (contractId.toList ++ k)) r.stateChanges
        effects.contractStateChanges :=
    Std.ExtTreeMap.foldl_eq_foldl_toList
  rw [heq]
  cases hscope : scope contractId key with
  | some k =>
      have hkey := scope_eq_some_iff.mp hscope
      apply Table.get_insertAll
      · intro k k' h h'
        exact List.append_cancel_left (Option.some.inj (h.trans h'.symm))
      · rw [hkey]
  | none =>
      apply Table.get_insertAll_of_ne
      intro k h
      rw [scope_eq_some_iff.mpr (Option.some.inj h).symm] at hscope
      cases hscope

/-! ## Effects laid over one another -/

def append (effects effects' : ContractEffects) : ContractEffects where
  contractStateChanges := Table.overlay effects.contractStateChanges effects'.contractStateChanges
  newContracts := effects.newContracts ++ effects'.newContracts

@[simp] theorem append_empty (effects : ContractEffects) : effects.append {} = effects := by
  apply ContractEffects.ext
  · apply Std.ExtTreeMap.ext_getElem?
    intro key
    simp [append, Table.get_overlay]
  · simp [append]

theorem append_assoc (a b c : ContractEffects) : (a.append b).append c = a.append (b.append c) := by
  apply ContractEffects.ext
  · exact Table.overlay_assoc _ _ _
  · exact List.append_assoc _ _ _

theorem recordChanges_eq_append (effects : ContractEffects) (contractId : Hash32)
    (r : ExecutionResult) :
    effects.recordChanges contractId r =
      effects.append (({} : ContractEffects).recordChanges contractId r) := by
  apply ContractEffects.ext
  · apply Std.ExtTreeMap.ext_getElem?
    intro key
    simp [append, Table.get_overlay, get_recordChanges]
  · simp [append, recordChanges]

section

variable [Blake3] (vm : WasmRuntime) (store : StateStore)

theorem deploy_eq_append (tx : Transaction) (bytecode : Bytes) (effects : ContractEffects) :
    deploy vm store tx bytecode effects = effects.append (deploy vm store tx bytecode {}) := by
  have hsuccess (r : ExecutionResult) :
      { effects with
        newContracts := effects.newContracts ++ [(blake3Of bytecode, bytecode)] }.recordChanges
          (blake3Of bytecode) r =
        effects.append (({ newContracts := [(blake3Of bytecode, bytecode)] } :
          ContractEffects).recordChanges (blake3Of bytecode) r) := by
    have hnew : { effects with
        newContracts := effects.newContracts ++ [(blake3Of bytecode, bytecode)] } =
          effects.append { newContracts := [(blake3Of bytecode, bytecode)] } :=
      ContractEffects.ext (congrArg contractStateChanges (append_empty effects)).symm rfl
    rw [hnew, recordChanges_eq_append, append_assoc, ← recordChanges_eq_append]
  unfold deploy
  dsimp only
  split
  · exact hsuccess _
  · exact (append_empty effects).symm

omit [Blake3] in
theorem call_eq_append (c : ContractCall) (effects : ContractEffects) :
    call vm store c effects = effects.append (call vm store c {}) := by
  unfold call
  split
  · dsimp only
    split
    · exact recordChanges_eq_append effects c.contractId _
    · exact (append_empty effects).symm
  · exact (append_empty effects).symm

end

end ContractEffects

/-! ## A block as a list of actions -/

/-- What a transaction asks of the contracts. -/
inductive ContractAction where
  | deploy (tx : Transaction) (bytecode : Bytes)
  | call (c : ContractCall)

/-- The actions of a transaction.  A deployment over the limit ends its turn. -/
def Transaction.actions (tx : Transaction) : List ContractAction :=
  match tx.deployContract with
  | some bytecode =>
      if bytecode.length > MAX_CONTRACT_SIZE then []
      else .deploy tx bytecode :: tx.contractCall.toList.map .call
  | none => tx.contractCall.toList.map .call

def ContractAction.contractId [Blake3] : ContractAction → Hash32
  | .deploy _ bytecode => blake3Of bytecode
  | .call c => c.contractId

def ContractAction.runs (store : StateStore) : ContractAction → Bool
  | .deploy _ _ => true
  | .call c => (store.getContractCode c.contractId).isSome

namespace StateStore

structure Agree (contractId : Hash32) (store store' : StateStore) : Prop where
  code : store.getContractCode contractId = store'.getContractCode contractId
  entries : ∀ k : Bytes, store.db.contractState[contractId.toList ++ k]? =
    store'.db.contractState[contractId.toList ++ k]?

theorem Agree.getContractStateAll {contractId : Hash32} {store store' : StateStore}
    (h : Agree contractId store store') :
    store.getContractStateAll contractId = store'.getContractStateAll contractId := by
  apply Std.ExtTreeMap.ext_getElem?
  intro k
  rw [get_getContractStateAll, get_getContractStateAll, h.entries]

end StateStore

namespace ContractEffects

structure Spares (effects : ContractEffects) (contractId : Hash32) : Prop where
  code : ∀ entry ∈ effects.newContracts, entry.1 ≠ contractId
  entries : ∀ k : Bytes, effects.contractStateChanges[contractId.toList ++ k]? = none

theorem Spares.recordChanges {effects : ContractEffects} {contractId c : Hash32}
    (h : effects.Spares contractId) (hne : c ≠ contractId) (r : ExecutionResult) :
    (effects.recordChanges c r).Spares contractId where
  code := h.code
  entries := by
    intro k
    have hother : scope c (contractId.toList ++ k) = none := by
      rw [Option.eq_none_iff_forall_ne_some]
      intro k' hscope
      have hkeys := List.append_inj (scope_eq_some_iff.mp hscope) (by simp)
      exact hne (Vector.toList_inj.mp hkeys.1).symm
    rw [get_recordChanges, hother, h.entries]
    rfl

variable [Blake3] (vm : WasmRuntime) (store : StateStore)

def perform (effects : ContractEffects) : ContractAction → ContractEffects
  | .deploy tx bytecode => effects.deploy vm store tx bytecode
  | .call c => effects.call vm store c

theorem executeTransaction_eq_foldl (effects : ContractEffects) (tx : Transaction) :
    executeTransaction vm store effects tx = tx.actions.foldl (perform vm store) effects := by
  unfold executeTransaction Transaction.actions
  cases tx.deployContract with
  | none => cases tx.contractCall <;> rfl
  | some bytecode =>
      dsimp only
      split
      · rfl
      · cases tx.contractCall <;> rfl

/-- The effects of a block are those of its actions, one by one. -/
theorem foldl_executeTransaction (effects : ContractEffects) (txs : List Transaction) :
    txs.foldl (executeTransaction vm store) effects =
      (txs.flatMap Transaction.actions).foldl (perform vm store) effects := by
  induction txs generalizing effects with
  | nil => rfl
  | cons tx txs ih =>
      rw [List.foldl_cons, ih, executeTransaction_eq_foldl, List.flatMap_cons, List.foldl_append]

/-! ## One action -/

section

variable {vm} {store store' : StateStore} {action : ContractAction} (effects : ContractEffects)

theorem perform_eq_append :
    perform vm store effects action = effects.append (perform vm store {} action) := by
  cases action with
  | deploy tx bytecode => exact deploy_eq_append vm store tx bytecode effects
  | call c => exact call_eq_append vm store c effects

/-- An action reads nothing but its contract. -/
theorem perform_congr (h : StateStore.Agree action.contractId store store') :
    perform vm store effects action = perform vm store' effects action := by
  cases action with
  | deploy tx bytecode =>
      have hstate : store.getContractStateAll (blake3Of bytecode) =
          store'.getContractStateAll (blake3Of bytecode) := h.getContractStateAll
      show deploy vm store tx bytecode effects = deploy vm store' tx bytecode effects
      unfold deploy
      dsimp only
      rw [hstate]
  | call c =>
      have hcode : store.getContractCode c.contractId = store'.getContractCode c.contractId :=
        h.code
      have hstate : store.getContractStateAll c.contractId =
          store'.getContractStateAll c.contractId := h.getContractStateAll
      show call vm store c effects = call vm store' c effects
      unfold call
      rw [hcode, hstate]

theorem Spares.perform {effects : ContractEffects} {contractId : Hash32}
    (h : effects.Spares contractId)
    (hspared : action.runs store → action.contractId ≠ contractId) :
    (perform vm store effects action).Spares contractId := by
  cases action with
  | deploy tx bytecode =>
      have hne : blake3Of bytecode ≠ contractId := hspared rfl
      show (deploy vm store tx bytecode effects).Spares contractId
      unfold deploy
      dsimp only
      split
      · apply Spares.recordChanges _ hne
        refine ⟨?_, h.entries⟩
        intro entry hentry
        obtain hold | hnew := List.mem_append.mp hentry
        · exact h.code entry hold
        · rw [List.mem_singleton.mp hnew]
          exact hne
      · exact h
  | call c =>
      show (call vm store c effects).Spares contractId
      unfold call
      split
      · rename_i hcode
        have hne : c.contractId ≠ contractId := hspared (by simp [ContractAction.runs, hcode])
        dsimp only
        split
        · exact h.recordChanges hne _
        · exact h
      · exact h

end

/-! ## Several actions -/

theorem foldl_perform_eq_append (effects : ContractEffects) (actions : List ContractAction) :
    actions.foldl (perform vm store) effects =
      effects.append (actions.foldl (perform vm store) {}) := by
  induction actions generalizing effects with
  | nil => exact (append_empty effects).symm
  | cons action actions ih =>
      rw [List.foldl_cons, List.foldl_cons, ih, perform_eq_append, append_assoc, ← ih]

theorem foldl_perform_congr {store store' : StateStore} {actions : List ContractAction}
    (h : ∀ action ∈ actions, StateStore.Agree action.contractId store store')
    (effects : ContractEffects) :
    actions.foldl (perform vm store) effects = actions.foldl (perform vm store') effects := by
  apply List.foldl_ext
  intro effects action haction
  exact perform_congr effects (h action haction)

theorem Spares.foldl_perform {effects : ContractEffects} {contractId : Hash32}
    (h : effects.Spares contractId) {actions : List ContractAction}
    (hspared : ∀ action ∈ actions, action.runs store → action.contractId ≠ contractId) :
    (actions.foldl (ContractEffects.perform vm store) effects).Spares contractId := by
  induction actions generalizing effects with
  | nil => exact h
  | cons action actions ih =>
      have hrest : ∀ a ∈ actions, a.runs store → a.contractId ≠ contractId :=
        fun a ha => hspared a (List.mem_cons_of_mem _ ha)
      exact ih (h.perform (hspared action List.mem_cons_self)) hrest

end ContractEffects

/-! ## Committing -/

namespace StateStore

/-- The contract half of what `apply_block` writes. -/
def commitEffects (store : StateStore) (effects : ContractEffects) : StateStore :=
  { store with db := { store.db with
    contracts := effects.newContracts.foldl (fun t c => t.insert c.1 c.2) store.db.contracts
    contractState := Table.overlay store.db.contractState effects.contractStateChanges } }

structure SameContracts (store store' : StateStore) : Prop where
  contracts : store.db.contracts = store'.db.contracts
  contractState : store.db.contractState = store'.db.contractState

theorem SameContracts.symm {a b : StateStore} (h : SameContracts a b) : SameContracts b a :=
  ⟨h.1.symm, h.2.symm⟩

theorem SameContracts.trans {a b c : StateStore} (h : SameContracts a b) (h' : SameContracts b c) :
    SameContracts a c := ⟨h.1.trans h'.1, h.2.trans h'.2⟩

theorem SameContracts.agree {store store' : StateStore} (h : SameContracts store store')
    (contractId : Hash32) : Agree contractId store store' where
  code := by rw [getContractCode, getContractCode, h.contracts]
  entries := by simp [h.contractState]

theorem SameContracts.commitEffects {store store' : StateStore} (h : SameContracts store store')
    (effects : ContractEffects) :
    SameContracts (store.commitEffects effects) (store'.commitEffects effects) where
  contracts := by simp [StateStore.commitEffects, h.contracts]
  contractState := by simp [StateStore.commitEffects, h.contractState]

@[simp] theorem commitEffects_empty (store : StateStore) : store.commitEffects {} = store := by
  have hstate : Table.overlay store.db.contractState ∅ = store.db.contractState := by
    apply Std.ExtTreeMap.ext_getElem?
    intro key
    simp [Table.get_overlay]
  rw [commitEffects, hstate]
  rfl

theorem commitEffects_commitEffects (store : StateStore) (effects effects' : ContractEffects) :
    (store.commitEffects effects).commitEffects effects' =
      store.commitEffects (effects.append effects') := by
  simp only [commitEffects, ContractEffects.append, List.foldl_append, Table.overlay_assoc]

theorem agree_commitEffects {contractId : Hash32} {effects : ContractEffects}
    (h : effects.Spares contractId) (store : StateStore) :
    Agree contractId (store.commitEffects effects) store where
  code := by
    have hfold (entries : List (Hash32 × Bytes)) (hne : ∀ entry ∈ entries, entry.1 ≠ contractId)
        (t : Table Hash32 Bytes) :
        (entries.foldl (fun t c => t.insert c.1 c.2) t)[contractId]? = t[contractId]? := by
      induction entries generalizing t with
      | nil => rfl
      | cons entry entries ih =>
          rw [List.foldl_cons, ih (fun e he => hne e (List.mem_cons_of_mem _ he)),
            Table.get_insert, if_neg (hne entry List.mem_cons_self)]
    exact hfold effects.newContracts h.code store.db.contracts
  entries := by
    intro k
    show (Table.overlay _ _)[contractId.toList ++ k]? = _
    rw [Table.get_overlay, h.entries, Option.none_or]

theorem sameContracts_applyExecuted [Blake3] (vm : WasmRuntime) {store : StateStore}
    {block : Block} (haccept : store.Accepts block) :
    SameContracts (applyExecuted vm store block).1
      (store.commitEffects (blockEffects vm store block)) := by
  obtain ⟨root, hok⟩ := applyBlock_ok_iff_accepts.mpr haccept
  obtain ⟨_, _, _, _, _, hbody⟩ :=
    sameExceptBody_applyEffects block.header.height store block.effects
  rw [applyExecuted, applyBlock_fst_of_ok hok, hbody]
  constructor
  · rfl
  · have hfold : (blockEffects vm store block).contractStateChanges.foldl
        (fun state key value => state.insert key value) store.db.contractState =
          Table.overlay store.db.contractState
            (blockEffects vm store block).contractStateChanges :=
      Std.ExtTreeMap.foldl_eq_foldl_toList
    exact hfold

end StateStore

end NoirNet
