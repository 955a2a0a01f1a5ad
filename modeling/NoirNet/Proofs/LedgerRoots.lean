import NoirNet.Consensus.Concrete
import NoirNet.Consensus.Outcome
import NoirNet.Proofs.StateRoot

/-!
# The state roots of the ledger

The comparison with the header's state root comes after `apply_block` has
written the block.  So the ledger holds blocks with correct roots exactly as
long as no block with a wrong one gets to the comparison.
-/

namespace NoirNet

open Lib NoteCommitmentTree

section

variable [Blake3]

/-- The root of the tree behind the commitments of the block, padded. -/
def rootAfter (store : StateStore) (block : Block) : StateRoot :=
  PerfectTree.root hashPair NOTE_COMMITMENT_TREE_DEPTH (window (store.leaves ++ block.commitments))

theorem bodyRoot_eq_rootAfter {store : StateStore} {block : Block} (hreach : store.Reachable)
    (haccept : store.Accepts block) : bodyRoot store block = rootAfter store block := by
  have heffects : (store.applyEffects block.header.height block.effects).2 = .ok () := by
    rw [StateStore.applyEffects_ok_iff, Block.nullifiers_effects]
    exact haccept.2
  have hbefore : Represents store.leaves store.tree := hreach.holds.represents
  calc bodyRoot store block
      = (block.commitments.foldl appended store.tree).root := by
        rw [bodyRoot, StateStore.stateRoot, StateStore.applyEffects_tree heffects,
          Block.commitments_effects]
    _ = rootAfter store block := (hbefore.foldl block.commitments).root_eq

theorem stateRoot_applyExecuted [Nova] (vm : WasmRuntime) {store : StateStore} {block : Block}
    (haccept : store.Accepts block) :
    (applyExecuted vm store block).1.stateRoot = bodyRoot store block := by
  obtain ⟨root, hok⟩ := StateStore.applyBlock_ok_iff_accepts.mpr haccept
  rw [applyExecuted, StateStore.applyBlock_fst_of_ok hok]
  rfl

variable [Nova]

/-- The executor, emitting each block that it writes to the store with the root
of the tree right after it. -/
def entryMachine : Machine (StateStore × PrivateMempool) Execution (Block × StateRoot) where
  step
    | (store, mempool), e =>
        let (store, mempool, outcome) :=
          executeAndApplyBlock e.vm e.isValidator e.now store mempool e.block
        ((store, mempool), if outcome.written then [(e.block, store.stateRoot)] else [])

theorem entryMachine_step_snd_of_lands {s : StateStore × PrivateMempool} {e : Execution}
    (h : Lands s e) : (entryMachine.step s e).2 = [(e.block, bodyRoot s.1 e.block)] := by
  have hwritten := (outcome_written_iff e.vm s.2).mpr ⟨h.passes, h.accepts⟩
  have hroot : (executorMachine.step s e).1.1.stateRoot = bodyRoot s.1 e.block := by
    rw [step_fst_of_lands h, stateRoot_applyExecuted e.vm h.accepts]
  rw [← hroot]
  exact if_pos hwritten

theorem entryMachine_step_snd_of_not_lands {s : StateStore × PrivateMempool} {e : Execution}
    (h : ¬ Lands s e) : (entryMachine.step s e).2 = [] := by
  apply if_neg
  intro hwritten
  obtain ⟨hpass, haccept⟩ := (outcome_written_iff e.vm s.2).mp hwritten
  exact h ⟨hpass, haccept⟩

theorem reachable_step {s : StateStore × PrivateMempool} {e : Execution}
    (hreach : s.1.Reachable) : (executorMachine.step s e).1.1.Reachable := by
  by_cases hpass : Passes e.isValidator e.now e.block
  · obtain ⟨ops, hops⟩ := hreach
    refine ⟨ops ++ [.applyBlock e.block (blockEffects e.vm s.1 e.block).contractStateChanges
      (blockEffects e.vm s.1 e.block).newContracts], ?_⟩
    rw [storeMachine.final_append, hops, step_fst_of_passes hpass]
    exact StateStore.step_applyBlock_fst s.1 e.block _ _
  · rw [step_fst_of_not_passes hpass]
    exact hreach

/-! ## What the claimed roots say -/

def RootsMatch (entries : List (Block × StateRoot)) (store : StateStore) : Prop :=
  ∀ (height : UInt64) (block : Block), store.getBlockByHeight height = some block →
    (∃ root, (block, root) ∈ entries) ∧
      ∀ root, (block, root) ∈ entries → block.header.stateRoot = root

/-- A root mismatch leaves chain height, nullifiers, tree and mempool alone. -/
def Undone (s : StateStore × PrivateMempool) (e : Execution) : Prop :=
  ∀ root, (executorMachine.step s e).2 = [(e.block, .rootMismatch root)] →
    (executorMachine.step s e).1.1.db.chainHeight = s.1.db.chainHeight ∧
    (executorMachine.step s e).1.1.db.nullifiers = s.1.db.nullifiers ∧
    (executorMachine.step s e).1.1.tree = s.1.tree ∧
    (executorMachine.step s e).1.2 = s.2

def CorrectRoot (s : StateStore × PrivateMempool) (e : Execution) : Prop :=
  Lands s e → e.block.header.stateRoot = rootAfter s.1 e.block

theorem CorrectRoot.undone {s : StateStore × PrivateMempool} {e : Execution}
    (hreach : s.1.Reachable) (h : CorrectRoot s e) : Undone s e := by
  intro root hmismatch
  exfalso
  have houtcome : (executeAndApplyBlock e.vm e.isValidator e.now s.1 s.2 e.block).2.2 =
      .rootMismatch root := by simpa [executorMachine] using hmismatch
  have hwritten : (executeAndApplyBlock e.vm e.isValidator e.now s.1 s.2
      e.block).2.2.written := by rw [houtcome]; rfl
  obtain ⟨hpass, haccept⟩ := (outcome_written_iff e.vm s.2).mp hwritten
  have hroot : bodyRoot s.1 e.block = e.block.header.stateRoot := by
    rw [bodyRoot_eq_rootAfter hreach haccept, h ⟨hpass, haccept⟩]
  rw [execute_of_accepts e.vm s.2 hpass haccept, if_neg (not_not.mpr hroot)] at houtcome
  cases houtcome

/-! ## Whole runs -/

structure Rooted (s : (StateStore × PrivateMempool) × List (Block × StateRoot)) : Prop where
  reachable : s.1.1.Reachable
  entered : ∀ (height : UInt64) (block : Block), s.1.1.getBlockByHeight height = some block →
    ∃ root, (block, root) ∈ s.2
  correct : ∀ entry ∈ s.2, entry.1.header.stateRoot = entry.2

omit [Nova] in
theorem Rooted.rootsMatch {s : (StateStore × PrivateMempool) × List (Block × StateRoot)}
    (h : Rooted s) : RootsMatch s.2 s.1.1 := by
  intro height block hfound
  exact ⟨h.entered height block hfound, fun root hroot => h.correct _ hroot⟩

theorem Rooted.step {s : (StateStore × PrivateMempool) × List (Block × StateRoot)}
    {e : Execution} (h : Rooted s) (hcorrect : CorrectRoot s.1 e) :
    Rooted (entryMachine.recorded.step s e).1 where
  reachable := reachable_step h.reachable
  entered := by
    intro height block hfound
    show ∃ root, (block, root) ∈ s.2 ++ (entryMachine.step s.1 e).2
    change (executorMachine.step s.1 e).1.1.getBlockByHeight height = some block at hfound
    by_cases hlands : Lands s.1 e
    · rw [step_fst_of_lands hlands] at hfound
      rw [entryMachine_step_snd_of_lands hlands]
      obtain rfl | hold := StateStore.getBlockByHeight_applyBlock hlands.accepts _ _ hfound
      · exact ⟨bodyRoot s.1.1 e.block, by simp⟩
      · obtain ⟨root, hroot⟩ := h.entered height block hold
        exact ⟨root, List.mem_append_left _ hroot⟩
    · rw [(step_fst_of_not_lands hlands).getBlockByHeight] at hfound
      obtain ⟨root, hroot⟩ := h.entered height block hfound
      exact ⟨root, List.mem_append_left _ hroot⟩
  correct := by
    intro entry hentry
    obtain hold | hnew := List.mem_append.mp hentry
    · exact h.correct entry hold
    · by_cases hlands : Lands s.1 e
      · rw [entryMachine_step_snd_of_lands hlands, List.mem_singleton] at hnew
        subst hnew
        rw [hcorrect hlands, bodyRoot_eq_rootAfter h.reachable hlands.accepts]
      · rw [entryMachine_step_snd_of_not_lands hlands] at hnew
        cases hnew

theorem rootsMatch_step_iff {s : (StateStore × PrivateMempool) × List (Block × StateRoot)}
    {e : Execution} (h : Rooted s) :
    RootsMatch (entryMachine.recorded.step s e).1.2 (entryMachine.recorded.step s e).1.1.1 ↔
      CorrectRoot s.1 e := by
  constructor
  · intro hmatch hlands
    -- the block itself is what is found at its height
    have hfound : (entryMachine.recorded.step s e).1.1.1.getBlockByHeight
        e.block.header.height = some e.block := by
      show (executorMachine.step s.1 e).1.1.getBlockByHeight e.block.header.height = some e.block
      rw [step_fst_of_lands hlands]
      exact StateStore.getBlockByHeight_applyBlock_self hlands.accepts _ _
    have hentry : (e.block, bodyRoot s.1.1 e.block) ∈ (entryMachine.recorded.step s e).1.2 := by
      show _ ∈ s.2 ++ (entryMachine.step s.1 e).2
      rw [entryMachine_step_snd_of_lands hlands]
      exact List.mem_append_right _ (List.mem_singleton_self _)
    have hroot := (hmatch e.block.header.height e.block hfound).2 _ hentry
    rw [hroot, bodyRoot_eq_rootAfter h.reachable hlands.accepts]
  · intro hcorrect
    exact (h.step hcorrect).rootsMatch

omit [Nova] in
theorem rooted_empty (mempool : PrivateMempool) : Rooted ((StateStore.empty, mempool), []) where
  reachable := ⟨[], rfl⟩
  entered := by
    intro height block h
    have hnone : StateStore.empty.getBlockByHeight height = none := rfl
    rw [hnone] at h
    cases h
  correct := by simp

theorem rootsMatch_run_iff (mempool : PrivateMempool) (es : List Execution) :
    (∀ js, js <+: es → RootsMatch (entryMachine.outputs (StateStore.empty, mempool) js)
        (entryMachine.final (StateStore.empty, mempool) js).1) ↔
      entryMachine.Admissible CorrectRoot (StateStore.empty, mempool) es := by
  have hstart := rooted_empty mempool
  have hlegal : entryMachine.recorded.Admissible (fun _ _ => True)
      ((StateStore.empty, mempool), []) es :=
    entryMachine.recorded.admissible_of_forall (fun _ _ _ => trivial) _
  have hrecorded : (∀ js, js <+: es →
      RootsMatch (entryMachine.recorded.final ((StateStore.empty, mempool), []) js).2
        (entryMachine.recorded.final ((StateStore.empty, mempool), []) js).1.1) ↔
      entryMachine.recorded.Admissible (fun s e => CorrectRoot s.1 e)
        ((StateStore.empty, mempool), []) es :=
    entryMachine.recorded.forall_prefix_iff Rooted (fun s => RootsMatch s.2 s.1.1)
      (fun s e _ h hcorrect => h.step hcorrect) (fun s e _ h => rootsMatch_step_iff h)
      hstart hstart.rootsMatch hlegal
  simpa only [Machine.final_recorded, Machine.admissible_recorded, List.nil_append]
    using hrecorded

/-- Throughout a run the stored blocks have the roots of the tree right after
them, and root mismatches change nothing, exactly when every block that lands
has the root of the tree behind its own commitments. -/
theorem ledger_roots_iff (mempool : PrivateMempool) (es : List Execution) :
    (∀ js, js <+: es → RootsMatch (entryMachine.outputs (StateStore.empty, mempool) js)
        (entryMachine.final (StateStore.empty, mempool) js).1) ∧
      entryMachine.Admissible Undone (StateStore.empty, mempool) es ↔
      entryMachine.Admissible CorrectRoot (StateStore.empty, mempool) es := by
  rw [rootsMatch_run_iff]
  constructor
  · intro h
    exact h.1
  · intro hcorrect
    refine ⟨hcorrect, Machine.Admissible.imp_of_invariant entryMachine
      (fun s => s.1.Reachable) ?_ ?_ (rooted_empty mempool).reachable hcorrect⟩
    · intro s e _ hreach
      exact reachable_step hreach
    · intro s e hreach h
      exact h.undone hreach

end

/-! ## A block with another root -/

section

attribute [local instance] Blake3.sum Nova.rejecting

def misrooted : Execution where
  vm := Env.blank.vm
  isValidator := false
  now := 0
  block := Block.blank 0 (fill 32 0) []

theorem misrooted_stored :
    (executorMachine.step (StateStore.empty, {}) misrooted).2 =
        [(misrooted.block, .rootMismatch emptyRoot)] ∧
      (entryMachine.final (StateStore.empty, {}) [misrooted]).1.db.chainHeight ≠
        StateStore.empty.db.chainHeight ∧
      ¬ RootsMatch (entryMachine.outputs (StateStore.empty, {}) [misrooted])
        (entryMachine.final (StateStore.empty, {}) [misrooted]).1 := by
  refine ⟨by decide +kernel, by decide +kernel, ?_⟩
  intro hmatch
  have hroot := (hmatch 0 misrooted.block (by decide +kernel)).2 emptyRoot
    (by decide +kernel)
  exact absurd hroot (by decide +kernel)

end

end NoirNet
