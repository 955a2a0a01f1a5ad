import NoirNet.Consensus.Evolution
import NoirNet.Proofs.DoubleSpend
import NoirNet.Proofs.Selection

/-!
# What a node admits in its lifetime

A nullifier that the pool has once admitted is taken for good: it is reserved
until a block with it is applied, and from then on it is spent.

* `taken_evolves`: whatever the node executes, prunes or admits, it stays taken;
* `admittedApart_run`: what is admitted in a run.
-/

namespace NoirNet

open Lib StateStore

def Taken (n : Hash32) (s : StateStore × PrivateMempool) : Prop :=
  s.2.pendingNullifiers.contains n ∨ s.1.containsNullifier n

section

variable [Blake3] [Nova] {vm : WasmRuntime} {isValidator : Bool} {n : Hash32}

omit [Nova] in
theorem containsNullifier_applyExecuted {store : StateStore} {block : Block}
    (h : store.containsNullifier n) : (applyExecuted vm store block).1.containsNullifier n := by
  rw [applyExecuted, ← step_applyBlock_fst]
  exact containsNullifier_step h _

theorem taken_execute {now : UInt64} {store : StateStore} {pool : PrivateMempool} {block : Block}
    (h : Taken n (store, pool)) :
    Taken n ((executeAndApplyBlock vm isValidator now store pool block).1,
      (executeAndApplyBlock vm isValidator now store pool block).2.1) := by
  by_cases hpass : Passes isValidator now block
  · by_cases haccept : store.Accepts block
    · have hspent : (applyExecuted vm store block).1.containsNullifier n ↔
          n ∈ block.nullifiers ∨ store.containsNullifier n :=
        containsNullifier_applyBlock haccept n
      rw [execute_of_accepts vm pool hpass haccept]
      split
      · exact h.imp_right fun hold => hspent.mpr (.inr hold)
      · -- what `remove_mined` releases is in the block
        by_cases hmined : n ∈ block.nullifiers
        · exact .inr (hspent.mpr (.inl hmined))
        · rcases h with hpending | hold
          · exact .inl (PrivateMempool.pending_removeMined.mpr ⟨hmined, hpending⟩)
          · exact .inr (hspent.mpr (.inr hold))
    · obtain ⟨e, he⟩ := execute_of_not_accepts vm pool hpass haccept
      rw [he]
      exact h.imp_right containsNullifier_applyExecuted
  · obtain ⟨reason, hreason⟩ := execute_of_not_passes vm pool store hpass
    rw [hreason]
    exact h

omit [Nova] in
theorem taken_inserted {store : StateStore} {pool : PrivateMempool} {tx : Transaction}
    (h : n ∈ tx.nullifiers ∨ Taken n (store, pool)) : Taken n (store, pool.inserted tx) := by
  rcases h with hown | hpending | hspent
  · exact .inl (PrivateMempool.pending_inserted.mpr (.inl hown))
  · exact .inl (PrivateMempool.pending_inserted.mpr (.inr hpending))
  · exact .inr hspent

/-- A taken nullifier stays taken. -/
theorem taken_evolves {s s' : StateStore × PrivateMempool} {os : List (Block × BlockOutcome)}
    (hevolves : Evolves vm isValidator s os s') (h : Taken n s) : Taken n s' := by
  induction hevolves with
  | refl => exact h
  | execute _ now block ih => exact taken_execute ih
  | prune _ keepLast ih =>
      exact ih.imp_right fun hspent => by rwa [containsNullifier_pruneHistory]
  | insert _ hinsert ih =>
      obtain ⟨-, -, -, -, -, rfl⟩ := PrivateMempool.insert_ok_iff.mp hinsert
      exact taken_inserted (.inr ih)

/-! ## Admissions -/

variable [Bls]

def admission (visit : LoopState × Input) : Option Transaction :=
  match visit.2.event with
  | .mempoolInsert tx =>
      if (visit.1.engine.mempool.insert visit.1.engine.stateStore tx).isOk then some tx else none
  | _ => none

def admissions (start : LoopState) (inputs : List Input) : List Transaction :=
  (engineMachine.visits start inputs).filterMap admission

def Apart (a b : Transaction) : Prop := ∀ n ∈ a.nullifiers, n ∉ b.nullifiers

/-- What was admitted so far is pairwise disjoint, and taken. -/
structure AdmittedApart (past : List (LoopState × Input)) (state : LoopState) : Prop where
  apart : (past.filterMap admission).Pairwise Apart
  taken : ∀ tx ∈ past.filterMap admission, ∀ n ∈ tx.nullifiers, Taken n state.engine.holdings

theorem AdmittedApart.step {past : List (LoopState × Input)} {state : LoopState}
    (h : AdmittedApart past state) (input : Input) :
    AdmittedApart (past ++ [(state, input)]) (state.step input).1 := by
  have hkeeps {n : Hash32} (htaken : Taken n state.engine.holdings) :
      Taken n (state.step input).1.engine.holdings :=
    taken_evolves (state.evolves_step input) htaken
  cases hadmits : admission (state, input) with
  | none =>
      have hpast : (past ++ [(state, input)]).filterMap admission = past.filterMap admission := by
        simp [List.filterMap_append, hadmits]
      constructor
      · rw [hpast]
        exact h.apart
      · rw [hpast]
        exact fun tx htx n hn => hkeeps (h.taken tx htx n hn)
  | some tx =>
      have hpast : (past ++ [(state, input)]).filterMap admission =
          past.filterMap admission ++ [tx] := by
        simp [List.filterMap_append, hadmits]
      obtain ⟨env, event⟩ := input
      cases event with
      | mempoolInsert other =>
          simp only [admission] at hadmits
          split at hadmits
          · cases hadmits
            cases hinsert : state.engine.mempool.insert state.engine.stateStore tx with
            | error e => rename_i hok; rw [hinsert] at hok; cases hok
            | ok pool =>
                have hnew : (state.step { env, event := .mempoolInsert tx }).1.engine.holdings =
                    (state.engine.stateStore, pool) := by
                  simp only [LoopState.step, LoopState.turn, hinsert]
                  rfl
                obtain ⟨-, -, -, -, hfree, rfl⟩ := PrivateMempool.insert_ok_iff.mp hinsert
                constructor
                · rw [hpast, List.pairwise_append]
                  refine ⟨h.apart, List.pairwise_singleton _ _, ?_⟩
                  intro old hold new hlast n hn hshared
                  obtain rfl := List.mem_singleton.mp hlast
                  rcases h.taken old hold n hn with hpending | hspent
                  · exact (hfree n hshared).2 hpending
                  · exact (hfree n hshared).1 hspent
                · rw [hpast, hnew]
                  intro old hold n hn
                  rcases List.mem_append.mp hold with hold | hlast
                  · exact taken_inserted (.inr (h.taken old hold n hn))
                  · obtain rfl := List.mem_singleton.mp hlast
                    exact taken_inserted (.inl hn)
          · cases hadmits
      | _ => cases hadmits

theorem admittedApart_run (start : LoopState) (inputs : List Input) :
    AdmittedApart (engineMachine.visits start inputs) (engineMachine.final start inputs) :=
  engineMachine.invariant_visits AdmittedApart (fun _ _ input h => h.step input)
    ⟨List.Pairwise.nil, nofun⟩ inputs

end

end NoirNet
