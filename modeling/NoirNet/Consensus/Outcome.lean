import NoirNet.Consensus.Execution
import NoirNet.Lib.Machine
import NoirNet.Storage.Frame

/-!
# What executing a block can do

Phase 1 passes or turns the block away untouched; then the store accepts the
block or not; an accepted block is in the store whatever its header says about
the root.  `execute_of_not_passes`, `execute_of_not_accepts` and
`execute_of_accepts` are the three cases; `executorMachine` strings them
together.
-/

namespace NoirNet

open Lib StateStore

/-! ## Phase 1 -/

section

variable [Nova]

def Transaction.Proven (tx : Transaction) : Prop :=
  tx.spends ≠ [] → tx.aggregateSpendProof ≠ [] ∧
    verifySpendProof tx.aggregateSpendProof tx.spends.length = .ok true

theorem verifyTransaction_ok_iff {tx : Transaction} :
    verifyTransaction tx = .ok () ↔ tx.Proven ∧ tx.validateFormat = .ok () := by
  -- the gas check repeats one of the format check
  have hgas (hformat : tx.validateFormat = .ok ()) : ¬ tx.gasLimit > MAX_TX_GAS := by
    obtain ⟨-, -, -, -, -, -, hgas, -, -, -⟩ := Transaction.validateFormat_ok_iff.mp hformat
    exact UInt64.not_lt.mpr hgas
  unfold verifyTransaction Transaction.Proven
  cases hspends : tx.spends with
  | nil =>
      cases hformat : tx.validateFormat with
      | error e => simp [bind, Except.bind, throw, throwThe, MonadExceptOf.throw]
      | ok u => simp [hgas hformat, pure, Except.pure]
  | cons spend spends =>
      cases hproof : tx.aggregateSpendProof with
      | nil => simp [bind, Except.bind, throw, throwThe, MonadExceptOf.throw]
      | cons b bytes =>
          rw [← hspends, ← hproof]
          cases hverify : verifySpendProof tx.aggregateSpendProof tx.spends.length with
          | error e =>
              simp [hspends, hproof, bind, Except.bind, throw, throwThe, MonadExceptOf.throw]
          | ok verified =>
              cases verified with
              | false =>
                  simp [hspends, hproof, bind, Except.bind, throw, throwThe, MonadExceptOf.throw]
              | true =>
                  cases hformat : tx.validateFormat with
                  | error e =>
                      simp [hspends, hproof, bind, Except.bind, throw, throwThe,
                        MonadExceptOf.throw]
                  | ok u => simp [hspends, hproof, hgas hformat, pure, Except.pure]

theorem verifyTransactions_ok_iff {txs : List Transaction} :
    verifyTransactions txs = .ok () ↔ ∀ tx ∈ txs, verifyTransaction tx = .ok () := by
  induction txs with
  | nil => simp [verifyTransactions]
  | cons tx txs ih =>
      rw [verifyTransactions, List.forall_mem_cons, ← ih]
      cases h : verifyTransaction tx with
      | error e => simp [bind, Except.bind]
      | ok u => simp [bind, Except.bind]

/-- Everything that is checked before anything is executed. -/
structure Passes (isValidator : Bool) (now : UInt64) (block : Block) : Prop where
  signed : isValidator → block.blsAggregateSig ≠ []
  timely : block.header.timestamp ≤ now + 60
  verified : ∀ tx ∈ block.transactions, verifyTransaction tx = .ok ()

end

/-! ## The three cases -/

variable [Blake3] [Nova]

def blockEffects (vm : WasmRuntime) (store : StateStore) (block : Block) : ContractEffects :=
  block.transactions.foldl (ContractEffects.executeTransaction vm store) {}

/-- `apply_block` with what the contracts produced. -/
def applyExecuted (vm : WasmRuntime) (store : StateStore) (block : Block) :
    StateStore × Except StorageError StateRoot :=
  store.applyBlock block (blockEffects vm store block).contractStateChanges
    (blockEffects vm store block).newContracts

section

variable (vm : WasmRuntime) {isValidator : Bool} {now : UInt64} {store : StateStore}
  (mempool : PrivateMempool) {block : Block}

theorem execute_of_passes (hpass : Passes isValidator now block) :
    executeAndApplyBlock vm isValidator now store mempool block =
      match applyExecuted vm store block with
      | (store, .ok root) =>
          if root ≠ block.header.stateRoot then (store, mempool, .rootMismatch root)
          else (store, mempool.removeMined block.transactions, .applied root)
      | (store, .error e) => (store, mempool, .failed e) := by
  have hsigned : ¬ (isValidator ∧ block.blsAggregateSig.isEmpty) := by
    rintro ⟨hvalidator, hempty⟩
    exact hpass.signed hvalidator (List.isEmpty_iff.mp hempty)
  have htimely : ¬ block.header.timestamp > now + 60 := UInt64.not_lt.mpr hpass.timely
  rw [executeAndApplyBlock, if_neg hsigned, if_neg htimely,
    verifyTransactions_ok_iff.mpr hpass.verified]
  rfl

theorem execute_of_not_passes (store : StateStore) (hfail : ¬ Passes isValidator now block) :
    ∃ reason, executeAndApplyBlock vm isValidator now store mempool block =
      (store, mempool, .rejected reason) := by
  rw [executeAndApplyBlock]
  by_cases hsigned : isValidator ∧ block.blsAggregateSig.isEmpty
  · rw [if_pos hsigned]
    exact ⟨_, rfl⟩
  · rw [if_neg hsigned]
    by_cases htimely : block.header.timestamp > now + 60
    · rw [if_pos htimely]
      exact ⟨_, rfl⟩
    · rw [if_neg htimely]
      cases hverify : verifyTransactions block.transactions with
      | error reason => exact ⟨reason, rfl⟩
      | ok u =>
          refine absurd ⟨?_, UInt64.not_lt.mp htimely, verifyTransactions_ok_iff.mp hverify⟩ hfail
          intro hvalidator hempty
          exact hsigned ⟨hvalidator, List.isEmpty_iff.mpr hempty⟩

theorem execute_of_not_accepts (hpass : Passes isValidator now block)
    (hreject : ¬ store.Accepts block) :
    ∃ e, executeAndApplyBlock vm isValidator now store mempool block =
      ((applyExecuted vm store block).1, mempool, .failed e) := by
  rw [execute_of_passes vm mempool hpass]
  obtain ⟨haccept, -⟩ | ⟨-, e, he⟩ := applyBlock_cases store block
    (blockEffects vm store block).contractStateChanges (blockEffects vm store block).newContracts
  · exact absurd haccept hreject
  · refine ⟨e, ?_⟩
    have hpair : applyExecuted vm store block = ((applyExecuted vm store block).1, .error e) :=
      Prod.ext rfl he
    rw [hpair]

def bodyRoot (store : StateStore) (block : Block) : StateRoot :=
  (store.applyEffects block.header.height block.effects).1.stateRoot

theorem execute_of_accepts (hpass : Passes isValidator now block)
    (haccept : store.Accepts block) :
    executeAndApplyBlock vm isValidator now store mempool block =
      if bodyRoot store block ≠ block.header.stateRoot then
        ((applyExecuted vm store block).1, mempool, .rootMismatch (bodyRoot store block))
      else ((applyExecuted vm store block).1, mempool.removeMined block.transactions,
        .applied (bodyRoot store block)) := by
  rw [execute_of_passes vm mempool hpass]
  obtain ⟨-, h⟩ | ⟨hreject, -⟩ := applyBlock_cases store block
    (blockEffects vm store block).contractStateChanges (blockEffects vm store block).newContracts
  · have hpair : applyExecuted vm store block =
        ((applyExecuted vm store block).1, .ok (bodyRoot store block)) := by
      rw [applyExecuted, h]
      rfl
    rw [hpair]
  · exact absurd haccept hreject

theorem outcome_rejected_iff :
    (∃ reason, (executeAndApplyBlock vm isValidator now store mempool block).2.2 =
      .rejected reason) ↔ ¬ Passes isValidator now block := by
  constructor
  · rintro ⟨reason, hreason⟩ hpass
    by_cases haccept : store.Accepts block
    · rw [execute_of_accepts vm mempool hpass haccept] at hreason
      split at hreason <;> cases hreason
    · obtain ⟨e, he⟩ := execute_of_not_accepts vm mempool hpass haccept
      rw [he] at hreason
      cases hreason
  · intro hfail
    obtain ⟨reason, h⟩ := execute_of_not_passes vm mempool store hfail
    exact ⟨reason, by rw [h]⟩

theorem outcome_applied_iff :
    (∃ root, (executeAndApplyBlock vm isValidator now store mempool block).2.2 = .applied root) ↔
      Passes isValidator now block ∧ store.Accepts block ∧
        bodyRoot store block = block.header.stateRoot := by
  by_cases hpass : Passes isValidator now block
  · by_cases haccept : store.Accepts block
    · rw [execute_of_accepts vm mempool hpass haccept]
      by_cases hroot : bodyRoot store block = block.header.stateRoot
      · rw [if_neg (not_not.mpr hroot)]
        simp [hpass, haccept, hroot]
      · rw [if_pos hroot]
        simp [hroot]
    · obtain ⟨e, he⟩ := execute_of_not_accepts vm mempool hpass haccept
      rw [he]
      simp [haccept]
  · obtain ⟨reason, h⟩ := execute_of_not_passes vm mempool store hpass
    rw [h]
    simp [hpass]

def BlockOutcome.written : BlockOutcome → Bool
  | .applied _ => true
  | .rootMismatch _ => true
  | .rejected _ => false
  | .failed _ => false

theorem outcome_written_iff :
    (executeAndApplyBlock vm isValidator now store mempool block).2.2.written ↔
      Passes isValidator now block ∧ store.Accepts block := by
  by_cases hpass : Passes isValidator now block
  · by_cases haccept : store.Accepts block
    · rw [execute_of_accepts vm mempool hpass haccept]
      split <;> simp [BlockOutcome.written, hpass, haccept]
    · obtain ⟨e, he⟩ := execute_of_not_accepts vm mempool hpass haccept
      rw [he]
      simp [BlockOutcome.written, haccept]
  · obtain ⟨reason, h⟩ := execute_of_not_passes vm mempool store hpass
    rw [h]
    simp [BlockOutcome.written, hpass]

end

/-! ## Runs -/

structure Execution where
  vm : WasmRuntime
  isValidator : Bool
  now : UInt64
  block : Block

/-- The store and the mempool under blocks from anywhere. -/
def executorMachine : Machine (StateStore × PrivateMempool) Execution (Block × BlockOutcome) where
  step
    | (store, mempool), e =>
        let (store, mempool, outcome) :=
          executeAndApplyBlock e.vm e.isValidator e.now store mempool e.block
        ((store, mempool), [(e.block, outcome)])

/-- The block gets past phase 1 and the store accepts it. -/
structure Lands (s : StateStore × PrivateMempool) (e : Execution) : Prop where
  passes : Passes e.isValidator e.now e.block
  accepts : s.1.Accepts e.block

theorem step_fst_of_lands {s : StateStore × PrivateMempool} {e : Execution} (h : Lands s e) :
    (executorMachine.step s e).1.1 = (applyExecuted e.vm s.1 e.block).1 := by
  simp only [executorMachine]
  rw [execute_of_accepts e.vm s.2 h.passes h.accepts]
  split <;> rfl

/-- Past phase 1 the store is the one behind `apply_block`, whatever that returns. -/
theorem step_fst_of_passes {s : StateStore × PrivateMempool} {e : Execution}
    (hpass : Passes e.isValidator e.now e.block) :
    (executorMachine.step s e).1.1 = (applyExecuted e.vm s.1 e.block).1 := by
  by_cases haccept : s.1.Accepts e.block
  · exact step_fst_of_lands ⟨hpass, haccept⟩
  · obtain ⟨error, herror⟩ := execute_of_not_accepts e.vm s.2 hpass haccept
    simp only [executorMachine]
    rw [herror]

theorem step_fst_of_not_passes {s : StateStore × PrivateMempool} {e : Execution}
    (hfail : ¬ Passes e.isValidator e.now e.block) : (executorMachine.step s e).1.1 = s.1 := by
  obtain ⟨reason, hreason⟩ := execute_of_not_passes e.vm s.2 s.1 hfail
  simp only [executorMachine]
  rw [hreason]

theorem step_fst_of_not_lands {s : StateStore × PrivateMempool} {e : Execution}
    (h : ¬ Lands s e) : SameExceptBody s.1 (executorMachine.step s e).1.1 := by
  by_cases hpass : Passes e.isValidator e.now e.block
  · have hreject : ¬ s.1.Accepts e.block := fun haccept => h ⟨hpass, haccept⟩
    rw [step_fst_of_passes hpass]
    exact sameExceptBody_applyBlock hreject
  · rw [step_fst_of_not_passes hpass]
    exact .refl s.1

end NoirNet
