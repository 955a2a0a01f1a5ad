import NoirNet.Consensus.Concrete
import NoirNet.Consensus.Contracts

/-!
# A block and its transactions one by one

Within a block no transaction sees what the contracts of another have written.
So a block does to the contracts what its transactions do in blocks of their
own, whatever the contracts compute, exactly when no transaction touches a
contract that an earlier one writes.
-/

namespace NoirNet

open Lib ContractEffects

section

variable [Blake3]

def Transaction.touches (tx : Transaction) : List Hash32 :=
  tx.actions.map ContractAction.contractId

/-- The contracts that a transaction can write, given the code in the store. -/
def StateStore.writtenBy (store : StateStore) (tx : Transaction) : List Hash32 :=
  (tx.actions.filter (ContractAction.runs store)).map ContractAction.contractId

/-- No transaction touches a contract that an earlier one writes. -/
def NonInterfering (store : StateStore) (txs : List Transaction) : Prop :=
  txs.Pairwise fun tx tx' => ∀ c ∈ store.writtenBy tx, c ∉ tx'.touches

instance (store : StateStore) (txs : List Transaction) : Decidable (NonInterfering store txs) :=
  inferInstanceAs (Decidable (txs.Pairwise _))

def turn (vm : WasmRuntime) (store : StateStore) (tx : Transaction) : StateStore :=
  store.commitEffects (tx.actions.foldl (perform vm store) {})

/-! ## Without interference -/

section

variable (vm : WasmRuntime) {store : StateStore}

theorem turn_commitEffects {effects : ContractEffects} {tx : Transaction}
    (hspared : ∀ c ∈ tx.touches, effects.Spares c) :
    turn vm (store.commitEffects effects) tx =
      store.commitEffects (tx.actions.foldl (perform vm store) effects) := by
  have hagree : ∀ action ∈ tx.actions,
      StateStore.Agree action.contractId (store.commitEffects effects) store := by
    intro action haction
    exact StateStore.agree_commitEffects (hspared _ (List.mem_map_of_mem haction)) store
  rw [turn, foldl_perform_congr vm hagree, StateStore.commitEffects_commitEffects,
    ← foldl_perform_eq_append]

/-- Transactions that do not interfere may be run on the committed store. -/
theorem foldl_turn_eq {txs : List Transaction} (hfree : NonInterfering store txs)
    {effects : ContractEffects} (hspared : ∀ tx ∈ txs, ∀ c ∈ tx.touches, effects.Spares c) :
    txs.foldl (turn vm) (store.commitEffects effects) =
      store.commitEffects (txs.foldl (executeTransaction vm store) effects) := by
  induction txs generalizing effects with
  | nil => rfl
  | cons tx txs ih =>
      obtain ⟨hhead, htail⟩ := List.pairwise_cons.mp hfree
      rw [List.foldl_cons, List.foldl_cons, turn_commitEffects vm (hspared tx List.mem_cons_self),
        executeTransaction_eq_foldl]
      apply ih htail
      intro tx' htx' c hc
      apply (hspared tx' (List.mem_cons_of_mem _ htx') c hc).foldl_perform
      rintro action haction hruns rfl
      apply hhead tx' htx' action.contractId _ hc
      exact List.mem_map_of_mem (List.mem_filter.mpr ⟨haction, hruns⟩)

theorem commitEffects_blockEffects {block : Block}
    (hfree : NonInterfering store block.transactions) :
    store.commitEffects (blockEffects vm store block) =
      block.transactions.foldl (turn vm) store := by
  have hspared : ∀ tx ∈ block.transactions, ∀ c ∈ tx.touches, ({} : ContractEffects).Spares c :=
    fun tx _ c _ => ⟨by simp, by simp⟩
  have hturns := foldl_turn_eq vm hfree hspared
  rw [StateStore.commitEffects_empty] at hturns
  exact hturns.symm

end

/-! ## One block a transaction -/

section

variable [Nova] (vm : WasmRuntime) (isValidator : Bool) (now : UInt64)

def executionOf (block : Block) : Execution where
  vm := vm
  isValidator := isValidator
  now := now
  block := block

theorem sameContracts_singles {blocks : List Block} {txs : List Transaction}
    (hblocks : blocks.map Block.transactions = txs.map fun tx => [tx])
    {s : StateStore × PrivateMempool} {store : StateStore} (hsame : s.1.SameContracts store)
    (hlands : executorMachine.Admissible Lands s (blocks.map (executionOf vm isValidator now))) :
    (executorMachine.final s (blocks.map (executionOf vm isValidator now))).1.SameContracts
      (txs.foldl (turn vm) store) := by
  induction txs generalizing blocks s store with
  | nil =>
      obtain rfl : blocks = [] := List.map_eq_nil_iff.mp hblocks
      exact hsame
  | cons tx txs ih =>
      obtain ⟨block, blocks, rfl, hblock, hrest⟩ := List.map_eq_cons_iff.mp hblocks
      obtain ⟨hland, hlands⟩ := hlands
      apply ih hrest _ hlands
      have heffects : blockEffects vm s.1 block = tx.actions.foldl (perform vm store) {} := by
        have hagree : ∀ action ∈ tx.actions,
            StateStore.Agree action.contractId s.1 store := fun action _ => hsame.agree _
        calc blockEffects vm s.1 block
            = tx.actions.foldl (perform vm s.1) {} := by
              rw [blockEffects, hblock, List.foldl_cons, List.foldl_nil,
                executeTransaction_eq_foldl]
          _ = tx.actions.foldl (perform vm store) {} := foldl_perform_congr vm hagree {}
      have happlied : (applyExecuted vm s.1 block).1.SameContracts
          (s.1.commitEffects (blockEffects vm s.1 block)) :=
        StateStore.sameContracts_applyExecuted vm hland.accepts
      rw [heffects] at happlied
      rw [step_fst_of_lands hland]
      exact happlied.trans (hsame.commitEffects _)

def single (store : StateStore) (block : Block) (tx : Transaction) : Block :=
  { block with
    header := { block.header with height := store.expectedHeight }
    transactions := [tx] }

/-- The transactions of a block can be applied one by one. -/
theorem exists_singles {block : Block} (hpass : Passes isValidator now block)
    {txs : List Transaction} (htxs : ∀ tx ∈ txs, tx ∈ block.transactions)
    {s : StateStore × PrivateMempool}
    (hfresh : s.1.Fresh (txs.flatMap fun tx => tx.spends.map (·.nullifier))) :
    ∃ blocks : List Block, blocks.map Block.transactions = txs.map (fun tx => [tx]) ∧
      executorMachine.Admissible Lands s (blocks.map (executionOf vm isValidator now)) := by
  induction txs generalizing s with
  | nil => exact ⟨[], rfl, trivial⟩
  | cons tx txs ih =>
      rw [List.flatMap_cons] at hfresh
      obtain ⟨hnodup, hdistinct, hdisjoint⟩ := List.nodup_append.mp hfresh.1
      have hnullifiers : (single s.1 block tx).nullifiers = tx.spends.map (·.nullifier) :=
        List.append_nil _
      have haccept : s.1.Accepts (single s.1 block tx) := by
        refine ⟨rfl, ?_⟩
        rw [hnullifiers]
        exact ⟨hnodup, fun n hn => hfresh.2 n (List.mem_append_left _ hn)⟩
      have hland : Lands s (executionOf vm isValidator now (single s.1 block tx)) := by
        refine ⟨⟨hpass.signed, hpass.timely, ?_⟩, haccept⟩
        intro tx' htx'
        rw [List.mem_singleton.mp htx']
        exact hpass.verified tx (htxs tx List.mem_cons_self)
      have hnext : (executorMachine.step s
          (executionOf vm isValidator now (single s.1 block tx))).1.1.Fresh
            (txs.flatMap fun tx => tx.spends.map (·.nullifier)) := by
        refine ⟨hdistinct, ?_⟩
        intro n hn hspent
        rw [step_fst_of_lands hland] at hspent
        obtain hnew | hold := (StateStore.containsNullifier_applyBlock haccept n).mp hspent
        · rw [hnullifiers] at hnew
          exact hdisjoint n hnew n hn rfl
        · exact hfresh.2 n (List.mem_append_right _ hn) hold
      obtain ⟨blocks, hblocks, hlands⟩ :=
        ih (fun tx htx => htxs tx (List.mem_cons_of_mem _ htx)) hnext
      exact ⟨single s.1 block tx :: blocks, by rw [List.map_cons, hblocks]; rfl, hland, hlands⟩

end

/-! ## Contracts that count -/

/-- Execution as a function of code, method, gas and existing state. -/
def WasmRuntime.of (wasm : Bytes → String → UInt64 → Table Bytes Bytes → Option ExecutionResult) :
    WasmRuntime :=
  fun code method _ ctx => wasm code method ctx.gasRemaining ctx.existingState

/-- What a contract returns that appends a byte to its only entry. -/
def incremented (existing : Table Bytes Bytes) : ExecutionResult where
  stateChanges := (∅ : Table Bytes Bytes).insert [] (existing[([] : Bytes)]?.getD [] ++ [0])

def counting : WasmRuntime := .of fun _ _ _ existing => some (incremented existing)

def tally (store : StateStore) (contractId : Hash32) : Bytes :=
  store.db.contractState[contractId.toList ++ []]?.getD []

omit [Blake3] in
theorem get_recordChanges_incremented (store : StateStore) (effects : ContractEffects)
    (contractId c : Hash32) :
    (effects.recordChanges contractId (incremented
        (store.getContractStateAll contractId))).contractStateChanges[c.toList ++ []]? =
      if contractId = c then some (tally store c ++ [0])
      else effects.contractStateChanges[c.toList ++ []]? := by
  rw [get_recordChanges]
  by_cases hc : contractId = c
  · subst hc
    rw [if_pos rfl, scope_eq_some_iff.mpr rfl]
    simp [incremented, tally, get_getContractStateAll]
  · have hother : scope contractId (c.toList ++ []) = none := by
      rw [Option.eq_none_iff_forall_ne_some]
      intro k hscope
      have hkeys := List.append_inj (scope_eq_some_iff.mp hscope) (by simp)
      exact hc (Vector.toList_inj.mp hkeys.1).symm
    rw [if_neg hc, hother]
    rfl

/-- The entry of a contract is written by the actions that run on it, all from
the committed store. -/
theorem get_perform_counting (store : StateStore) (effects : ContractEffects)
    (action : ContractAction) (c : Hash32) :
    (perform counting store effects action).contractStateChanges[c.toList ++ []]? =
      if action.contractId = c ∧ action.runs store then some (tally store c ++ [0])
      else effects.contractStateChanges[c.toList ++ []]? := by
  cases action with
  | deploy tx bytecode =>
      have hdeploy := get_recordChanges_incremented store
        { effects with newContracts := effects.newContracts ++ [(blake3Of bytecode, bytecode)] }
        (blake3Of bytecode) c
      simp only [ContractAction.runs, and_true]
      exact hdeploy
  | call call =>
      show (ContractEffects.call counting store call effects).contractStateChanges[_]? = _
      unfold ContractEffects.call
      cases hcode : store.getContractCode call.contractId with
      | none => simp [ContractAction.runs, hcode]
      | some code =>
          have hcall := get_recordChanges_incremented store effects call.contractId c
          simp only [ContractAction.runs, hcode, Option.isSome_some, and_true]
          exact hcall

theorem get_foldl_perform_counting (store : StateStore) (effects : ContractEffects)
    (actions : List ContractAction) (c : Hash32) :
    (actions.foldl (perform counting store) effects).contractStateChanges[c.toList ++ []]? =
      if c ∈ (actions.filter (ContractAction.runs store)).map ContractAction.contractId then
        some (tally store c ++ [0])
      else effects.contractStateChanges[c.toList ++ []]? := by
  induction actions generalizing effects with
  | nil => rfl
  | cons action actions ih =>
      have hmem : c ∈ ((action :: actions).filter (ContractAction.runs store)).map
          ContractAction.contractId ↔ c ∈ (actions.filter (ContractAction.runs store)).map
            ContractAction.contractId ∨ action.contractId = c ∧ action.runs store := by
        rw [List.filter_cons]
        by_cases hruns : action.runs store
        · rw [if_pos hruns, List.map_cons, List.mem_cons, eq_comm, or_comm]
          simp [hruns]
        · rw [if_neg hruns]
          simp [hruns]
      rw [List.foldl_cons, ih, get_perform_counting]
      simp only [hmem]
      by_cases hrest : c ∈ (actions.filter (ContractAction.runs store)).map
          ContractAction.contractId
      · simp only [hrest, true_or, if_true]
      · simp only [hrest, false_or, if_false]

/-! ## Counting one by one -/

def count (store : StateStore) (contractId : Hash32) : Nat := (tally store contractId).length

theorem count_commitEffects (store : StateStore) (actions : List ContractAction) (c : Hash32) :
    count (store.commitEffects (actions.foldl (perform counting store) {})) c =
      count store c +
        if c ∈ (actions.filter (ContractAction.runs store)).map ContractAction.contractId then 1
        else 0 := by
  have hentry : (store.commitEffects (actions.foldl (perform counting store)
      {})).db.contractState[c.toList ++ []]? =
        ((actions.foldl (perform counting store) {}).contractStateChanges[c.toList ++ []]?).or
          store.db.contractState[c.toList ++ []]? := Table.get_overlay _ _ _
  rw [get_foldl_perform_counting] at hentry
  unfold count
  rw [tally, hentry]
  split
  · simp
  · simp [tally]

theorem mem_newContracts (store : StateStore) {actions : List ContractAction} {tx : Transaction}
    {bytecode : Bytes} (h : .deploy tx bytecode ∈ actions) (effects : ContractEffects) :
    blake3Of bytecode ∈
      (actions.foldl (perform counting store) effects).newContracts.map Prod.fst := by
  induction actions generalizing effects with
  | nil => cases h
  | cons action actions ih =>
      rw [List.foldl_cons]
      obtain rfl | htail := List.mem_cons.mp h
      · rw [foldl_perform_eq_append]
        have hdeployed : (perform counting store effects (.deploy tx bytecode)).newContracts =
            effects.newContracts ++ [(blake3Of bytecode, bytecode)] := rfl
        simp [ContractEffects.append, hdeployed]
      · exact ih htail _

theorem coded_turn {store : StateStore} {tx : Transaction} {c : Hash32}
    (h : (store.getContractCode c).isSome ∨ c ∈ store.writtenBy tx) :
    ((turn counting store tx).getContractCode c).isSome := by
  have hcode : ((turn counting store tx).getContractCode c).isSome ↔
      c ∈ (tx.actions.foldl (perform counting store) {}).newContracts.map Prod.fst ∨
        (store.getContractCode c).isSome :=
    Table.isSome_foldl_insert Prod.fst Prod.snd _ store.db.contracts c
  rw [hcode]
  obtain hold | hwritten := h
  · exact .inr hold
  · obtain ⟨action, haction, rfl⟩ := List.mem_map.mp hwritten
    obtain ⟨hmem, hruns⟩ := List.mem_filter.mp haction
    cases action with
    | deploy tx' bytecode => exact .inl (mem_newContracts store hmem {})
    | call call => exact .inr hruns

theorem mem_writtenBy_of_coded {store : StateStore} {tx : Transaction} {c : Hash32}
    (hcode : (store.getContractCode c).isSome) (h : c ∈ tx.touches) : c ∈ store.writtenBy tx := by
  obtain ⟨action, hmem, rfl⟩ := List.mem_map.mp h
  apply List.mem_map_of_mem
  apply List.mem_filter.mpr
  refine ⟨hmem, ?_⟩
  cases action with
  | deploy tx' bytecode => rfl
  | call call => exact hcode

theorem writtenBy_mono {base store : StateStore} (hmono : ∀ c, (base.getContractCode c).isSome →
      (store.getContractCode c).isSome) {tx : Transaction} {c : Hash32}
    (h : c ∈ base.writtenBy tx) : c ∈ store.writtenBy tx := by
  obtain ⟨action, haction, rfl⟩ := List.mem_map.mp h
  obtain ⟨hmem, hruns⟩ := List.mem_filter.mp haction
  apply List.mem_map_of_mem
  apply List.mem_filter.mpr
  refine ⟨hmem, ?_⟩
  cases action with
  | deploy tx' bytecode => rfl
  | call call => exact hmono _ hruns

theorem count_turn_of_written {store : StateStore} {tx : Transaction} {c : Hash32}
    (h : c ∈ store.writtenBy tx) : count (turn counting store tx) c = count store c + 1 := by
  rw [StateStore.writtenBy] at h
  rw [turn, count_commitEffects, if_pos h]

theorem count_le_turn (store : StateStore) (tx : Transaction) (c : Hash32) :
    count store c ≤ count (turn counting store tx) c := by
  rw [turn, count_commitEffects]
  exact Nat.le_add_right _ _

theorem count_le_foldl_turn (txs : List Transaction) (store : StateStore) (c : Hash32) :
    count store c ≤ count (txs.foldl (turn counting) store) c := by
  induction txs generalizing store with
  | nil => exact le_rfl
  | cons tx txs ih => exact (count_le_turn store tx c).trans (ih _)

theorem count_lt_of_coded {txs : List Transaction} {store : StateStore} {c : Hash32}
    (hcode : (store.getContractCode c).isSome) {tx : Transaction} (htx : tx ∈ txs)
    (htouches : c ∈ tx.touches) :
    count store c < count (txs.foldl (turn counting) store) c := by
  induction txs generalizing store with
  | nil => cases htx
  | cons head txs ih =>
      rw [List.foldl_cons]
      obtain rfl | htail := List.mem_cons.mp htx
      · have hone := count_turn_of_written (mem_writtenBy_of_coded hcode htouches)
        have hmore := count_le_foldl_turn txs (turn counting store tx) c
        omega
      · have hcode' : ((turn counting store head).getContractCode c).isSome :=
          coded_turn (.inl hcode)
        exact (count_le_turn store head c).trans_lt (ih hcode' htail)

/-- Among transactions that interfere some contract counts twice. -/
theorem count_of_interfering {base : StateStore} {txs : List Transaction}
    (hinterfere : ¬ NonInterfering base txs) {store : StateStore}
    (hmono : ∀ c, (base.getContractCode c).isSome → (store.getContractCode c).isSome) :
    ∃ c, count store c + 2 ≤ count (txs.foldl (turn counting) store) c := by
  induction txs generalizing store with
  | nil => exact absurd List.Pairwise.nil hinterfere
  | cons head txs ih =>
      have hcoded (c : Hash32) (hc : (base.getContractCode c).isSome) :
          ((turn counting store head).getContractCode c).isSome := coded_turn (.inl (hmono c hc))
      by_cases hhead : ∀ tx ∈ txs, ∀ c ∈ base.writtenBy head, c ∉ tx.touches
      · have htail : ¬ NonInterfering base txs :=
          fun htail => hinterfere (List.pairwise_cons.mpr ⟨hhead, htail⟩)
        obtain ⟨c, hc⟩ := ih htail hcoded
        have hone := count_le_turn store head c
        exact ⟨c, by rw [List.foldl_cons]; omega⟩
      · push Not at hhead
        obtain ⟨tx, htx, c, hwritten, htouches⟩ := hhead
        have hwritten' := writtenBy_mono hmono hwritten
        have hone := count_turn_of_written hwritten'
        have hmore := count_lt_of_coded (coded_turn (.inr hwritten')) htx htouches
        exact ⟨c, by rw [List.foldl_cons]; omega⟩

/-! ## The comparison -/

variable [Nova]

/-- For any block that passes phase 1 and is accepted: whatever deterministic
runtime executes it and whatever blocks of one transaction each are applied
instead, code and state of the contracts come out the same, exactly when no
transaction touches a contract that an earlier one writes. -/
theorem sequential_iff {isValidator : Bool} {now : UInt64} {block : Block}
    (hpass : Passes isValidator now block) {store : StateStore} (haccept : store.Accepts block)
    (mempool : PrivateMempool) :
    (∀ (wasm : Bytes → String → UInt64 → Table Bytes Bytes → Option ExecutionResult)
        (singles : List Block),
      singles.map Block.transactions = block.transactions.map (fun tx => [tx]) →
      executorMachine.Admissible Lands (store, mempool)
        (singles.map (executionOf (.of wasm) isValidator now)) →
      (executorMachine.step (store, mempool)
          (executionOf (.of wasm) isValidator now block)).1.1.SameContracts
        (executorMachine.final (store, mempool)
          (singles.map (executionOf (.of wasm) isValidator now))).1) ↔
      NonInterfering store block.transactions := by
  have hblock (vm : WasmRuntime) :
      (executorMachine.step (store, mempool)
          (executionOf vm isValidator now block)).1.1.SameContracts
        (store.commitEffects (blockEffects vm store block)) := by
    have hlands : Lands (store, mempool) (executionOf vm isValidator now block) := ⟨hpass, haccept⟩
    rw [step_fst_of_lands hlands]
    exact StateStore.sameContracts_applyExecuted vm haccept
  constructor
  · intro hall
    by_contra hinterfere
    obtain ⟨singles, hsingles, hlands⟩ := exists_singles counting isValidator now hpass
      (fun tx htx => htx) (s := (store, mempool)) haccept.2
    have hturns := sameContracts_singles counting isValidator now hsingles ⟨rfl, rfl⟩ hlands
    have hsame := (hblock counting).symm.trans ((hall _ singles hsingles hlands).trans hturns)
    obtain ⟨c, hc⟩ := count_of_interfering hinterfere (fun _ h => h)
    have hcounts : count (store.commitEffects (blockEffects counting store block)) c =
        count (block.transactions.foldl (turn counting) store) c := by
      rw [count, tally, hsame.contractState]
      rfl
    rw [blockEffects, foldl_executeTransaction, count_commitEffects] at hcounts
    split at hcounts <;> omega
  · intro hfree wasm singles hsingles hlands
    have hturns := sameContracts_singles (.of wasm) isValidator now hsingles ⟨rfl, rfl⟩ hlands
    rw [← commitEffects_blockEffects _ hfree] at hturns
    exact (hblock _).trans hturns.symm

end

/-! ## A deployment and a call in one block -/

section

attribute [local instance] Blake3.sum Nova.rejecting

def deployment1 : Transaction := { Transaction.blank [] [] [] with deployContract := some [1] }

def call1 : Transaction :=
  { Transaction.blank [] [] [] with
    contractCall := some
      { contractId := blake3Of [1]
        method := "run"
        args := []
        gasLimit := 0
        callerCommitment := fill 32 0 } }

def contractBlock (height : UInt64) (txs : List Transaction) : Block :=
  { Block.blank height (fill 32 0) txs with
    header := { BlockHeader.blank height (fill 32 0) with stateRoot := emptyRoot } }

def applyAll (blocks : List Block) : StateStore × PrivateMempool :=
  executorMachine.final (StateStore.empty, {}) (blocks.map (executionOf counting false 0))

def outcomesOf (blocks : List Block) : List BlockOutcome :=
  (executorMachine.outputs (StateStore.empty, {})
    (blocks.map (executionOf counting false 0))).map Prod.snd

theorem call_misses_deployment :
    outcomesOf [contractBlock 0 [deployment1, call1]] = [.applied emptyRoot] ∧
      outcomesOf [contractBlock 0 [deployment1], contractBlock 1 [call1]] =
        [.applied emptyRoot, .applied emptyRoot] ∧
      (applyAll [contractBlock 0 [deployment1, call1]]).1.getContractState (blake3Of [1]) [] =
        some [0] ∧
      (applyAll [contractBlock 0 [deployment1], contractBlock 1 [call1]]).1.getContractState
        (blake3Of [1]) [] = some [0, 0] := by
  decide +kernel

def deployment2 : Transaction := { deployment1 with deployContract := some [2] }

/-- In whatever way contracts run, a block at height 0 comes to what its transactions come to in
blocks of their own. -/
def Sequential (txs : List Transaction) : Prop :=
  ∀ (wasm : Bytes → String → UInt64 → Table Bytes Bytes → Option ExecutionResult)
      (singles : List Block),
    singles.map Block.transactions = txs.map (fun tx => [tx]) →
    executorMachine.Admissible Lands (StateStore.empty, {})
      (singles.map (executionOf (.of wasm) false 0)) →
    (executorMachine.step (StateStore.empty, {})
        (executionOf (.of wasm) false 0 (contractBlock 0 txs))).1.1.SameContracts
      (executorMachine.final (StateStore.empty, {})
        (singles.map (executionOf (.of wasm) false 0))).1

theorem deployments_sequential :
    Sequential [deployment1, deployment2] ∧ ¬ Sequential [deployment1, call1] := by
  have hpass (txs : List Transaction) (htxs : ∀ tx ∈ txs, verifyTransaction tx = .ok ()) :
      Passes false 0 (contractBlock 0 txs) :=
    ⟨nofun, (by decide : (0 : UInt64) ≤ 0 + 60), htxs⟩
  have haccept : StateStore.empty.Accepts (contractBlock 0 [deployment1, deployment2]) := by
    decide +kernel
  have haccept' : StateStore.empty.Accepts (contractBlock 0 [deployment1, call1]) := by
    decide +kernel
  constructor
  · exact (sequential_iff (hpass _ (by decide +kernel)) haccept {}).mpr (by decide +kernel)
  · exact mt (sequential_iff (hpass _ (by decide +kernel)) haccept' {}).mp (by decide +kernel)

end

end NoirNet
