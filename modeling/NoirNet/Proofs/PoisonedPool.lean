import NoirNet.Consensus.Evolution
import NoirNet.Proofs.BlockSelection
import NoirNet.Proofs.BuiltHeader
import NoirNet.Proofs.LeaderHeader

/-!
# A transaction that is never mined

`insert` checks the format of a transaction and its nullifiers, phase 1 of a block its proof
as well.  A transaction that fails there is never in a block that is applied, so nothing
removes it from the pool, and the proposals that contain it fail with it.

* `kept_evolves`: such a transaction stays in the pool;
* `mem_selection`: when a pooled transaction is selected;
* `holding_step`: one step of the loop;
* `poisoned_pool`: the run.
-/

namespace NoirNet

open Lib

section

variable [Blake3]

/-! ## Staying in the pool -/

theorem get_of_insert {pool pool' : PrivateMempool} {store : StateStore} {tx t : Transaction}
    {id : TxId} (hinsert : pool.insert store t = .ok pool') (h : pool.txs[id]? = some tx) :
    pool'.txs[id]? = some tx := by
  obtain ⟨-, hnew, -, -, -, rfl⟩ := PrivateMempool.insert_ok_iff.mp hinsert
  rw [PrivateMempool.get_inserted]
  by_cases hid : t.txId = id
  · subst hid
    rw [h] at hnew
    cases hnew
  · rw [if_neg hid]
    exact h

variable [Nova]

/-- No other transaction of a block that is written has the id of this one. -/
def OnlyId (tx : Transaction) (os : List (Block × BlockOutcome)) : Prop :=
  ∀ o ∈ os, o.2.written → ∀ t ∈ o.1.transactions, t.txId = tx.txId → t = tx

instance (tx : Transaction) (os : List (Block × BlockOutcome)) : Decidable (OnlyId tx os) :=
  inferInstanceAs (Decidable (∀ o ∈ os, o.2.written → ∀ t ∈ o.1.transactions, _))

theorem get_of_execute {vm : WasmRuntime} {isValidator : Bool} {now : UInt64}
    {store : StateStore} {pool : PrivateMempool} {block : Block} {tx : Transaction}
    (hbad : verifyTransaction tx ≠ .ok ())
    (hmined : (executeAndApplyBlock vm isValidator now store pool block).2.2.written →
      ∀ t ∈ block.transactions, t.txId = tx.txId → t = tx)
    (h : pool.txs[tx.txId]? = some tx) :
    (executeAndApplyBlock vm isValidator now store pool block).2.1.txs[tx.txId]? = some tx := by
  by_cases hpass : Passes isValidator now block
  · by_cases haccept : store.Accepts block
    · have hunique := hmined ((outcome_written_iff vm pool).mpr ⟨hpass, haccept⟩)
      rw [execute_of_accepts vm pool hpass haccept]
      split
      · exact h
      · rw [PrivateMempool.get_removeMined, if_neg]
        · exact h
        · intro hmem
          obtain ⟨t, ht, hid⟩ := List.mem_map.mp hmem
          have hsame := hunique t ht hid
          exact hbad (hsame ▸ hpass.verified t ht)
    · obtain ⟨e, he⟩ := execute_of_not_accepts vm pool hpass haccept
      rw [he]
      exact h
  · obtain ⟨reason, hreason⟩ := execute_of_not_passes vm pool store hpass
    rw [hreason]
    exact h

/-- A pooled transaction that fails phase 1 stays pooled. -/
theorem kept_evolves {vm : WasmRuntime} {isValidator : Bool} {s s' : StateStore × PrivateMempool}
    {os : List (Block × BlockOutcome)} (hevolves : Evolves vm isValidator s os s')
    {tx : Transaction} (hbad : verifyTransaction tx ≠ .ok ()) (halone : OnlyId tx os)
    (h : s.2.txs[tx.txId]? = some tx) : s'.2.txs[tx.txId]? = some tx := by
  induction hevolves with
  | refl => exact h
  | execute _ now block ih =>
      apply get_of_execute hbad
      · exact halone _ (List.mem_append_right _ (List.mem_singleton_self _))
      · exact ih fun o ho => halone o (List.mem_append_left _ ho)
  | prune _ keepLast ih => exact ih halone
  | insert _ hinsert ih => exact get_of_insert hinsert (ih halone)

theorem pooled_evolves {vm : WasmRuntime} {isValidator : Bool}
    {s s' : StateStore × PrivateMempool} {os : List (Block × BlockOutcome)}
    (hevolves : Evolves vm isValidator s os s') (h : Pooled s.2) : Pooled s'.2 := by
  induction hevolves with
  | refl => exact h
  | @execute os store pool _ now block ih =>
      by_cases hpass : Passes isValidator now block
      · by_cases haccept : store.Accepts block
        · rw [execute_of_accepts vm pool hpass haccept]
          split
          · exact ih
          · exact ih.removeMined _
        · obtain ⟨e, he⟩ := execute_of_not_accepts vm pool hpass haccept
          rw [he]
          exact ih
      · obtain ⟨reason, hreason⟩ := execute_of_not_passes vm pool store hpass
        rw [hreason]
        exact ih
  | prune _ keepLast ih => exact ih
  | insert _ hinsert ih => exact ih.insert hinsert

/-! ## Being selected -/

/-- The pooled transactions that are at least as dear, this one among them, fit into a
block. -/
def Outbids (tx : Transaction) (pool : PrivateMempool) : Prop :=
  Greedy.load Transaction.gas (pool.txs.values.filter fun t => tx.fee ≤ t.fee) ≤
    MAX_BLOCK_GAS.toNat

omit [Nova] in
/-- A pooled transaction is selected if those at least as dear fit into a block. -/
theorem mem_selection {pool : PrivateMempool} (hpool : Pooled pool)
    {shuffle : List Transaction → List Transaction} (hshuffle : ∀ txs, (shuffle txs).Perm txs)
    {id : TxId} {tx : Transaction} (h : pool.txs[id]? = some tx) (houtbids : Outbids tx pool) :
    tx ∈ pool.selectForBlock shuffle 10000 MAX_BLOCK_GAS := by
  obtain ⟨hnodup, hpooled, -, -, -, hmaximal⟩ :=
    sound_selectForBlock hpool.keyed hshuffle 10000 MAX_BLOCK_GAS
  generalize pool.selectForBlock shuffle 10000 MAX_BLOCK_GAS = selected at *
  by_contra hleft
  have hvalue : tx ∈ pool.txs.values := Table.mem_values.mpr ⟨id, h⟩
  -- the selection and the transaction are distinct pooled transactions
  have hall : (tx :: selected).Nodup := List.nodup_cons.mpr ⟨hleft, hnodup⟩
  have hsub : ∀ t ∈ tx :: selected, t ∈ pool.txs.values := by
    intro t ht
    rcases List.mem_cons.mp ht with rfl | ht
    · exact hvalue
    · exact Table.mem_values.mpr (hpooled t ht)
  have hsubperm := List.subperm_of_subset hall hsub
  have hshort : selected.length < 10000 := by
    have hlength := hsubperm.length_le
    have hbounded := hpool.keyed.length_values_le
    rw [List.length_cons] at hlength
    exact Nat.lt_of_lt_of_le hlength hbounded
  have hfull := hmaximal hshort id tx h hleft
  have hload := Greedy.load_subperm Transaction.gas
    (hsubperm.filter fun t => decide (tx.fee ≤ t.fee))
  rw [List.filter_cons, if_pos (decide_eq_true (UInt64.le_refl tx.fee)), Greedy.load_cons] at hload
  unfold Outbids at houtbids
  omega

omit [Nova] in
theorem transactions_selection (store : StateStore) {pool : PrivateMempool} (hpool : Pooled pool)
    {shuffle : List Transaction → List Transaction} (hshuffle : ∀ txs, (shuffle txs).Perm txs)
    (proposer vrfOutput : Bytes32) (timestamp epoch : UInt64) :
    (BlockBuilder.buildBlock store (pool.selectForBlock shuffle 10000 MAX_BLOCK_GAS) proposer
      vrfOutput timestamp epoch).transactions =
        pool.selectForBlock shuffle 10000 MAX_BLOCK_GAS := by
  obtain ⟨-, hpooled, -, -, hgas, -⟩ :=
    sound_selectForBlock hpool.keyed hshuffle 10000 MAX_BLOCK_GAS
  rw [BlockBuilder.transactions_buildBlock_eq_iff]
  refine ⟨?_, hgas⟩
  intro tx htx
  obtain ⟨id, ht⟩ := hpooled tx htx
  exact UInt64.le_iff_toNat_le.mpr (hpool.keyed.gas_le (Table.mem_values.mpr ⟨id, ht⟩))

/-! ## The run -/

variable [Bls]

/-- A proposal is built from what the node holds behind the step. -/
theorem LoopState.proposal_of_step {state : LoopState} {input : Input} {block : Block}
    (h : block ∈ Action.proposals (state.step input).2) :
    ∃ engine k, block = ConsensusEngine.proposal engine input.env k ∧
      engine.holdings = (state.step input).1.engine.holdings := by
  have hnone := state.proposals_turn input
  unfold step at h ⊢
  cases hturn : state.turn input with
  | mk flow actions =>
      rw [hturn] at hnone h
      dsimp only at hnone h
      cases flow with
      | stay state' =>
          rw [hnone] at h
          cases h
      | leave engine =>
          simp only [Action.proposals_append, hnone, List.nil_append,
            ConsensusEngine.proposals_enter] at h
          split at h
          · exact ⟨engine, actions.length, List.mem_singleton.mp h, rfl⟩
          · cases h

/-- The pool is one that its operations lead to, and holds this transaction. -/
structure LoopState.Holding (tx : Transaction) (state : LoopState) : Prop where
  pooled : Pooled state.engine.mempool
  holds : state.engine.mempool.txs[tx.txId]? = some tx

theorem LoopState.holding_step {tx : Transaction} (hbad : verifyTransaction tx ≠ .ok ())
    (state : LoopState) (input : Input)
    (honly : OnlyId tx (Action.outcomes (state.step input).2)) (h : state.Holding tx) :
    (engineMachine.step state input).1.Holding tx where
  pooled := pooled_evolves (state.evolves_step input) h.pooled
  holds := kept_evolves (state.evolves_step input) hbad honly h.holds

/-- A transaction that fails phase 1 and is in the pool of a node stays there for every run.
Every proposal the node makes while the transactions at least as dear fit into a block
contains it, and every node turns the proposal away. -/
theorem poisoned_pool (engine : ConsensusEngine) (hpool : Pooled engine.mempool) (env : Env)
    {tx : Transaction} (hpooled : engine.mempool.txs[tx.txId]? = some tx)
    (hbad : verifyTransaction tx ≠ .ok ()) (inputs : List Input) :
    let start := (engine.enter env 0 0).1
    engineMachine.Admissible
        (fun state input => OnlyId tx (Action.outcomes (state.step input).2)) start inputs →
      (engineMachine.final start inputs).engine.mempool.txs[tx.txId]? = some tx ∧
        ∀ visit ∈ engineMachine.visits start inputs,
          ∀ block ∈ Action.proposals (visit.1.step visit.2).2,
            Outbids tx (visit.1.step visit.2).1.engine.mempool →
              tx ∈ block.transactions ∧ ∀ vm isValidator now store pool, ∃ reason,
                (executeAndApplyBlock vm isValidator now store pool block).2.2 =
                  .rejected reason := by
  intro start hadmissible
  have hstart : start.Holding tx := ⟨hpool, hpooled⟩
  have hstep := LoopState.holding_step hbad
  refine ⟨(engineMachine.invariant _ hstep hstart hadmissible).holds, ?_⟩
  rintro ⟨state, input⟩ hvisit block hblock houtbids
  obtain ⟨front, rest, rfl, rfl⟩ := engineMachine.mem_visits hvisit
  obtain ⟨hfront, honly, -⟩ := engineMachine.admissible_append.mp hadmissible
  have hbehind := hstep _ input honly (engineMachine.invariant _ hstep hstart hfront)
  obtain ⟨proposer, k, rfl, hholdings⟩ := LoopState.proposal_of_step hblock
  have hmempool : proposer.mempool = (engineMachine.step (engineMachine.final start front)
      input).1.engine.mempool := congrArg Prod.snd hholdings
  have htx : tx ∈ (proposer.proposal input.env k).transactions := by
    rw [ConsensusEngine.proposal, hmempool,
      transactions_selection _ hbehind.pooled input.env.shuffle_perm]
    exact mem_selection hbehind.pooled input.env.shuffle_perm hbehind.holds houtbids
  refine ⟨htx, ?_⟩
  intro vm isValidator now store pool
  exact (outcome_rejected_iff vm pool).mpr fun hpass => hbad (hpass.verified tx htx)

end

/-! ## An unproven payment -/

section

attribute [local instance] Bls.plain Blake3.sum Nova.rejecting

def poisoned : ConsensusEngine :=
  { ConsensusEngine.plain [1, 2] 2 with mempool := ({} : PrivateMempool).inserted (payment 1) }

/-- A block is committed that the node turns away, so it proposes one of its own. -/
def turnedAway : List Input :=
  [Event.input (.block blockA), Event.input (.vote (Vote.plain 1 0 blockA.header.hash .prevote)),
    Event.input (.vote (Vote.plain 1 0 blockA.header.hash .precommit))]

theorem unproven_payment_stays :
    let start := (poisoned.enter Env.blank 0 0).1
    (∃ block, .broadcastBlock block ∈ engineMachine.outputs start turnedAway) ∧
      (engineMachine.final start turnedAway).engine.mempool.txs[(payment 1).txId]? =
          some (payment 1) ∧
        ∀ visit ∈ engineMachine.visits start turnedAway,
          ∀ block ∈ Action.proposals (visit.1.step visit.2).2,
            Outbids (payment 1) (visit.1.step visit.2).1.engine.mempool →
              payment 1 ∈ block.transactions ∧ ∀ vm isValidator now store pool, ∃ reason,
                (executeAndApplyBlock vm isValidator now store pool block).2.2 =
                  .rejected reason := by
  have honly : engineMachine.Admissible
      (fun state input => OnlyId (payment 1) (Action.outcomes (state.step input).2))
      (poisoned.enter Env.blank 0 0).1 turnedAway := by
    refine ⟨?_, ?_, ?_, trivial⟩
    · decide +kernel
    · decide +kernel
    · decide +kernel
  have hproposes : (Action.proposals (engineMachine.outputs (poisoned.enter Env.blank 0 0).1
      turnedAway)).length = 1 := by
    decide +kernel
  have hunproven : verifyTransaction (payment 1) = .error (.missingProof (payment 1)) := by
    decide +kernel
  have hbad : verifyTransaction (payment 1) ≠ .ok () := by
    rw [hunproven]
    exact nofun
  have hpooled : poisoned.mempool.txs[(payment 1).txId]? = some (payment 1) := by
    decide +kernel
  refine ⟨?_, poisoned_pool poisoned pooled_payment Env.blank hpooled hbad turnedAway honly⟩
  obtain ⟨block, hblock⟩ := List.exists_mem_of_length_pos (hproposes.symm ▸ Nat.one_pos)
  obtain ⟨action, haction, hsome⟩ := List.mem_filterMap.mp hblock
  refine ⟨block, ?_⟩
  cases action <;> cases hsome
  exact haction

end

end NoirNet
