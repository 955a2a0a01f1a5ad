import NoirNet.Concrete
import NoirNet.Storage.Frame

/-!
# Rejected blocks

A block with the wrong height is turned away before anything is written.  A
block whose body is cut short by a spent nullifier leaves every effect in front
of that spend behind, in the database and in the tree.
-/

namespace NoirNet.StateStore

section

variable [Blake3]

/-- The first effect of a body that is cut short decides: it is the spend that
cuts it short, or it is never undone. -/
theorem applyEffects_eq_self_iff {height : UInt64} {store : StateStore} {effects : List Effect}
    (hfresh : ¬ store.Fresh (Effect.nullifiers effects)) :
    (store.applyEffects height effects).1 = store ↔
      ∃ nullifier, effects.head? = some (.spend nullifier) ∧
        store.containsNullifier nullifier := by
  cases effects with
  | nil => exact absurd ⟨List.nodup_nil, by simp [Effect.nullifiers]⟩ hfresh
  | cons e effects =>
      cases e with
      | spend nullifier =>
          by_cases hspent : store.containsNullifier nullifier
          · simp [applyEffects, hspent]
          · have hafter :
                (store.applyEffects height (.spend nullifier :: effects)).1.containsNullifier
                nullifier := by
              rw [applyEffects, if_neg hspent]
              apply containsNullifier_mono
              simp
            constructor
            · intro heq
              rw [heq] at hafter
              exact absurd hafter hspent
            · simp [hspent]
      | output commitment =>
          have hgrow : store.tree.size <
              (store.applyEffects height (.output commitment :: effects)).1.tree.size :=
            calc
              store.tree.size < (store.appendCommitment commitment).tree.size := Nat.lt_succ_self _
              _ ≤ _ := size_le_applyEffects _ _
          constructor
          · intro heq
            rw [heq] at hgrow
            exact absurd hgrow (Nat.lt_irrefl _)
          · simp

/-- Rejection leaves the store as it was exactly when nothing of the body had
been applied: the height was wrong, or the first effect is the offending spend. -/
theorem applyBlock_atomic_iff (store : StateStore) (block : Block)
    (changes : Lib.Table Bytes Bytes) (contracts : List (Hash32 × Bytes)) :
    (∀ e, (store.applyBlock block changes contracts).2 = .error e →
        (store.applyBlock block changes contracts).1 = store) ↔
      block.header.height ≠ store.expectedHeight ∨ store.Fresh block.nullifiers ∨
        ∃ nullifier, block.effects.head? = some (.spend nullifier) ∧
          store.containsNullifier nullifier := by
  by_cases hheight : block.header.height = store.expectedHeight
  · by_cases hfresh : store.Fresh block.nullifiers
    · have hok : ¬ ∃ e, (store.applyBlock block changes contracts).2 = .error e := by
        rw [applyBlock_error_iff]
        simp [hheight, hfresh]
      constructor
      · intro _
        exact .inr (.inl hfresh)
      · intro _ e he
        exact absurd ⟨e, he⟩ hok
    · obtain ⟨e, he⟩ : ∃ e, (store.applyBlock block changes contracts).2 = .error e :=
        applyBlock_error_iff.mpr (.inr hfresh)
      have hself : (∀ e, (store.applyBlock block changes contracts).2 = .error e →
          (store.applyBlock block changes contracts).1 = store) ↔
          (store.applyBlock block changes contracts).1 = store :=
        ⟨fun h => h e he, fun h _ _ => h⟩
      rw [hself, applyBlock_fst_of_error he, if_pos hheight,
        applyEffects_eq_self_iff (by rwa [Block.nullifiers_effects])]
      simp [hheight, hfresh]
  · simp [applyBlock_of_height_ne hheight, hheight]

end

def repeatedSpend : Block :=
  Block.blank 0 (fill 32 0)
    [Transaction.blank [SpendDescription.blank (fill 32 7), SpendDescription.blank (fill 32 7)]
      [OutputDescription.blank (fill 32 9)] []]

theorem rejected_block_spends :
    letI := Blake3.sum
    Reachable empty ∧
      (empty.applyBlock repeatedSpend ∅ []).2 = .error .doubleSpend ∧
      empty.containsNullifier (fill 32 7) = false ∧
      (empty.applyBlock repeatedSpend ∅ []).1.containsNullifier (fill 32 7) = true :=
  ⟨⟨[], rfl⟩, by decide +kernel, by decide +kernel, by decide +kernel⟩

end NoirNet.StateStore
