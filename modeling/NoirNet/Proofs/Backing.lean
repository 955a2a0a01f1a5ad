import NoirNet.Proofs.LedgerRoots

/-!
# Outputs and the spends behind them

`apply_block` appends the outputs of every transaction, and phase 1 asks for a
proof only where there are spends.  A deployment or a call needs none, so its
outputs are backed by nothing.

* `Holds.land`: the leaves behind a block;
* `backed_iff`: the run.
-/

namespace NoirNet

open Lib

/-! ## The leaves behind a block -/

namespace StateStore

variable [Blake3]

theorem Holds.applyBody {height : UInt64} {leaves : List Hash32} {store : StateStore}
    (h : Holds leaves store) {effects : List Effect}
    (hok : (store.applyEffects height effects).2 = .ok ()) :
    Holds (leaves ++ Effect.commitments effects) (store.applyEffects height effects).1 := by
  induction effects generalizing leaves store with
  | nil =>
      show Holds (leaves ++ []) store
      rwa [List.append_nil]
  | cons e effects ih =>
      cases e with
      | spend nullifier =>
          rw [StateStore.applyEffects] at hok ⊢
          by_cases hspent : store.containsNullifier nullifier
          · simp [hspent] at hok
          · rw [if_neg hspent] at hok ⊢
            have hinsert : Holds leaves (store.insertNullifier nullifier height) := ⟨h.1, h.2, h.3⟩
            exact ih hinsert hok
      | output commitment =>
          rw [StateStore.applyEffects] at hok ⊢
          have hrest := ih (h.appendCommitment commitment) hok
          rwa [List.append_assoc] at hrest

theorem Holds.land [Nova] {leaves : List Hash32} {store : StateStore} (h : Holds leaves store)
    (vm : WasmRuntime) {block : Block} (haccept : store.Accepts block) :
    Holds (leaves ++ block.commitments) (applyExecuted vm store block).1 := by
  obtain ⟨root, hok⟩ := applyBlock_ok_iff_accepts.mpr haccept
  have hbody := h.applyBody (applyBlock_ok_iff.mp hok).2.1
  rw [Block.commitments_effects] at hbody
  rw [applyExecuted, applyBlock_fst_of_ok hok]
  exact ⟨hbody.1, hbody.2, hbody.3⟩

end StateStore

/-! ## What backs a commitment -/

def Block.outputs (block : Block) : List (Transaction × Hash32) :=
  block.transactions.flatMap fun tx => tx.outputs.map fun out => (tx, out.noteCommitment)

theorem Block.map_snd_outputs (block : Block) : block.outputs.map Prod.snd = block.commitments := by
  simp only [outputs, commitments, List.map_flatMap, List.map_map, Function.comp_def]

section

variable [Blake3] [Nova]

structure Transaction.Backing (tx : Transaction) : Prop where
  spends : tx.spends ≠ []
  verified : verifySpendProof tx.aggregateSpendProof tx.spends.length = .ok true

/-- Every leaf that the block appends is an output of a backing transaction. -/
def Backed (s : StateStore × PrivateMempool) (e : Execution) : Prop :=
  ∀ i, s.1.tree.size ≤ i → i < (executorMachine.step s e).1.1.tree.size →
    ∃ tx commitment, e.block.outputs[i - s.1.tree.size]? = some (tx, commitment) ∧
      NoteCommitmentTree.getCommitment (executorMachine.step s e).1.1.db i = some commitment ∧
      tx.Backing

def NoBareOutputs (block : Block) : Prop :=
  ∀ tx ∈ block.transactions, tx.spends = [] → tx.outputs = []

theorem leaf_of_lands {s : StateStore × PrivateMempool} {e : Execution}
    (hreach : s.1.Reachable) (h : Lands s e) (k : Nat) :
    (executorMachine.step s e).1.1.tree.size = s.1.tree.size + e.block.outputs.length ∧
      NoteCommitmentTree.getCommitment (executorMachine.step s e).1.1.db (s.1.tree.size + k) =
        e.block.outputs[k]?.map Prod.snd := by
  have hbefore := hreach.holds
  have hafter := hbefore.land e.vm h.accepts
  have hsize : s.1.tree.size = s.1.leaves.length := hbefore.represents.size_eq
  rw [step_fst_of_lands h]
  constructor
  · have hlen : e.block.outputs.length = e.block.commitments.length := by
      rw [← e.block.map_snd_outputs, List.length_map]
    rw [hafter.represents.size_eq, List.length_append, hsize, hlen]
  · rw [hafter.commitments_eq, hsize, List.getElem?_append_right (by omega),
      Nat.add_sub_cancel_left, ← e.block.map_snd_outputs, List.getElem?_map]

theorem backed_iff_of_lands {s : StateStore × PrivateMempool} {e : Execution}
    (hreach : s.1.Reachable) (h : Lands s e) : Backed s e ↔ NoBareOutputs e.block := by
  constructor
  · intro hbacked tx htx hspends
    by_contra houtputs
    obtain ⟨out, hout⟩ := List.exists_mem_of_ne_nil _ houtputs
    have hmem : (tx, out.noteCommitment) ∈ e.block.outputs :=
      List.mem_flatMap.mpr ⟨tx, htx, List.mem_map.mpr ⟨out, hout, rfl⟩⟩
    obtain ⟨k, hk, hget⟩ := List.mem_iff_getElem.mp hmem
    have hsize := (leaf_of_lands hreach h k).1
    obtain ⟨owner, commitment, howner, -, hbacking⟩ :=
      hbacked (s.1.tree.size + k) (by omega) (by omega)
    rw [Nat.add_sub_cancel_left, List.getElem?_eq_getElem hk, hget] at howner
    cases howner
    exact hbacking.spends hspends
  · intro hbare i hlow hhigh
    obtain ⟨k, rfl⟩ := Nat.exists_eq_add_of_le hlow
    obtain ⟨hsize, hleaf⟩ := leaf_of_lands hreach h k
    have hk : k < e.block.outputs.length := by omega
    refine ⟨e.block.outputs[k].1, e.block.outputs[k].2, ?_, ?_, ?_⟩
    · rw [Nat.add_sub_cancel_left, List.getElem?_eq_getElem hk]
    · rw [hleaf, List.getElem?_eq_getElem hk]
      rfl
    · obtain ⟨tx, htx, hout⟩ := List.mem_flatMap.mp (List.getElem_mem hk)
      obtain ⟨out, hmem, heq⟩ := List.mem_map.mp hout
      rw [← heq]
      have hspends : tx.spends ≠ [] := fun hnil =>
        List.ne_nil_of_mem hmem (hbare tx htx hnil)
      obtain ⟨hproven, -⟩ := verifyTransaction_ok_iff.mp (h.passes.verified tx htx)
      exact ⟨hspends, (hproven hspends).2⟩

/-- In a run of blocks from anywhere every commitment that an accepted block appends
belongs to a transaction with a spend and a verified proof, exactly when no accepted
block has a transaction with outputs and without spends. -/
theorem backed_iff (mempool : PrivateMempool) (es : List Execution) :
    executorMachine.Admissible (fun s e => Lands s e → Backed s e) (StateStore.empty, mempool) es ↔
      executorMachine.Admissible (fun s e => Lands s e → NoBareOutputs e.block)
        (StateStore.empty, mempool) es := by
  have hstart : StateStore.empty.Reachable := ⟨[], rfl⟩
  apply executorMachine.admissible_iff_of_invariant (fun s => s.1.Reachable)
    (fun _ _ hreach => reachable_step hreach) _ hstart
  intro s e hreach
  apply imp_congr_right
  intro hlands
  exact backed_iff_of_lands hreach hlands

end

/-- The root behind a body is a matter of the body. -/
theorem bodyRoot_congr [Blake3] (store : StateStore) {block block' : Block}
    (hheight : block.header.height = block'.header.height)
    (hbody : block.transactions = block'.transactions) :
    bodyRoot store block = bodyRoot store block' := by
  rw [bodyRoot, bodyRoot, Block.effects, Block.effects, hheight, hbody]

theorem outcome_of_lands [Blake3] [Nova] {s : StateStore × PrivateMempool} {e : Execution}
    (h : Lands s e) (hroot : bodyRoot s.1 e.block = e.block.header.stateRoot) :
    (executorMachine.step s e).2 = [(e.block, .applied e.block.header.stateRoot)] := by
  simp only [executorMachine]
  rw [execute_of_accepts e.vm s.2 h.passes h.accepts, if_neg (not_not.mpr hroot), hroot]

/-! ## A deployment with an output -/

section

attribute [local instance] Blake3.sum Nova.rejecting

def bareOutput : Transaction :=
  { Transaction.blank [] [OutputDescription.blank (fill 32 1)] [] with deployContract := some [1] }

def bareBlock : Execution where
  vm := Env.blank.vm
  isValidator := false
  now := 0
  block :=
    { Block.blank 0 (fill 32 0) [bareOutput] with
      header := { BlockHeader.blank 0 (fill 32 0) with
        stateRoot := bodyRoot StateStore.empty (Block.blank 0 (fill 32 0) [bareOutput]) } }

theorem bare_output_applied :
    (executorMachine.step (StateStore.empty, {}) bareBlock).2 =
        [(bareBlock.block, .applied bareBlock.block.header.stateRoot)] ∧
      ¬ ∀ (mempool : PrivateMempool) (es : List Execution),
        executorMachine.Admissible (fun s e => Lands s e → Backed s e)
          (StateStore.empty, mempool) es := by
  have hlands : Lands (StateStore.empty, {}) bareBlock :=
    ⟨⟨nofun, by decide, by decide +kernel⟩, by decide +kernel⟩
  constructor
  · exact outcome_of_lands hlands (bodyRoot_congr StateStore.empty rfl rfl)
  · intro h
    have hbare := (backed_iff_of_lands ⟨[], rfl⟩ hlands).mp ((h {} [bareBlock]).1 hlands)
    have hnil := hbare bareOutput (List.mem_singleton_self _) rfl
    cases hnil

end

end NoirNet
