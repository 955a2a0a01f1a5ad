import NoirNet.Storage.Frame

/-!
# No double spend

A step lemma says that the nullifiers a block brings into the applied history
are pairwise distinct, were not spent before and are spent afterwards; spent
nullifiers survive every operation.  The run lemma follows by induction.
-/

namespace NoirNet

open StateStore

variable [Blake3]

def appliedNullifiers (store : StateStore) (ops : List StoreOp) : List Hash32 :=
  (storeMachine.outputs store ops).flatMap Block.nullifiers

theorem containsNullifier_step {store : StateStore} {n : Hash32}
    (h : store.containsNullifier n) (op : StoreOp) :
    (storeMachine.step store op).1.containsNullifier n := by
  cases op with
  | pruneHistory keepLast => simpa [storeMachine] using h
  | reopen => exact h
  | applyBlock block changes contracts =>
      rw [step_applyBlock_fst]
      cases hresult : (store.applyBlock block changes contracts).2 with
      | ok root =>
          rw [applyBlock_fst_of_ok hresult, containsNullifier_finishBlock]
          exact containsNullifier_mono h
      | error e =>
          rw [applyBlock_fst_of_error hresult]
          split
          · exact containsNullifier_mono h
          · exact h

theorem containsNullifier_final {store : StateStore} {n : Hash32}
    (h : store.containsNullifier n) (ops : List StoreOp) :
    (storeMachine.final store ops).containsNullifier n :=
  storeMachine.invariant_final (fun store => store.containsNullifier n)
    (fun _ op h => containsNullifier_step h op) h ops

/-- What one operation adds to the applied history. -/
theorem fresh_step (store : StateStore) (op : StoreOp) :
    store.Fresh ((storeMachine.step store op).2.flatMap Block.nullifiers) ∧
      ∀ n ∈ (storeMachine.step store op).2.flatMap Block.nullifiers,
        (storeMachine.step store op).1.containsNullifier n := by
  have hnil : store.Fresh [] := ⟨List.nodup_nil, by simp⟩
  cases op with
  | pruneHistory keepLast => exact ⟨hnil, by simp [storeMachine]⟩
  | reopen => exact ⟨hnil, by simp [storeMachine]⟩
  | applyBlock block changes contracts =>
      cases hresult : store.applyBlock block changes contracts with
      | mk store' result =>
          cases result with
          | error e => simpa [storeMachine, hresult] using hnil
          | ok root =>
              have hok : (store.applyBlock block changes contracts).2 = .ok root := by rw [hresult]
              have hstore' : store' = ((store.applyEffects block.header.height
                  block.effects).1.finishBlock block changes contracts).1 := by
                rw [← applyBlock_fst_of_ok hok, hresult]
              have heffects := (applyBlock_ok_iff.mp hok).2.1
              simp only [storeMachine, hresult, List.flatMap_singleton]
              rw [← Block.nullifiers_effects]
              refine ⟨(applyEffects_ok_iff _).mp heffects, ?_⟩
              intro n hn
              rw [hstore', containsNullifier_finishBlock]
              exact containsNullifier_applyEffects heffects n hn

theorem fresh_run (store : StateStore) (ops : List StoreOp) :
    store.Fresh (appliedNullifiers store ops) ∧
      ∀ n ∈ appliedNullifiers store ops, (storeMachine.final store ops).containsNullifier n := by
  unfold appliedNullifiers
  induction ops generalizing store with
  | nil => exact ⟨⟨List.nodup_nil, by simp⟩, by simp⟩
  | cons op ops ih =>
      obtain ⟨⟨hnodup, hunspent⟩, hspent⟩ := fresh_step store op
      obtain ⟨⟨hnodup', hunspent'⟩, hspent'⟩ := ih (storeMachine.step store op).1
      rw [Lib.Machine.outputs_cons, List.flatMap_append]
      have hdisjoint : ∀ n ∈ (storeMachine.step store op).2.flatMap Block.nullifiers,
          n ∉ (storeMachine.outputs (storeMachine.step store op).1 ops).flatMap
            Block.nullifiers :=
        fun n hn hn' => hunspent' n hn' (hspent n hn)
      refine ⟨⟨?_, ?_⟩, ?_⟩
      · rw [List.nodup_append]
        refine ⟨hnodup, hnodup', ?_⟩
        rintro n hn _ hn' rfl
        exact hdisjoint n hn hn'
      · intro n hn
        rcases List.mem_append.mp hn with hn | hn
        · exact hunspent n hn
        · intro hcontains
          exact hunspent' n hn (containsNullifier_step hcontains op)
      · intro n hn
        rcases List.mem_append.mp hn with hn | hn
        · exact containsNullifier_final (hspent n hn) ops
        · exact hspent' n hn

/-- Over any run from an empty database no nullifier of the applied blocks
repeats, and each is in the nullifier set however the run goes on. -/
theorem no_double_spend (ops : List StoreOp) :
    (appliedNullifiers StateStore.empty ops).Nodup ∧
      ∀ n ∈ appliedNullifiers StateStore.empty ops, ∀ later : List StoreOp,
        (storeMachine.final StateStore.empty (ops ++ later)).containsNullifier n := by
  obtain ⟨⟨hnodup, -⟩, hspent⟩ := fresh_run StateStore.empty ops
  refine ⟨hnodup, ?_⟩
  intro n hn later
  rw [Lib.Machine.final_append]
  exact containsNullifier_final (hspent n hn) later

end NoirNet
