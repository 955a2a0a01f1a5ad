import NoirNet.Storage.StateStore

/-!
# The body of a block as a sequence of effects

`apply_block` walks transactions, and in each of them spends and then outputs.
Flattened, the body is one list of effects; the two nested loops are one fold
over it that stops at the first spend already in the nullifier set.

* `applyTransactions_eq`: the loops are the fold;
* `applyEffects_ok_iff`: when the fold reaches the end;
* `applyEffects_tree`, `containsNullifier_applyEffects`: what it leaves behind.
-/

namespace NoirNet

open Lib

inductive Effect where
  | spend (nullifier : Hash32)
  | output (commitment : Hash32)
  deriving DecidableEq

def Transaction.effects (tx : Transaction) : List Effect :=
  tx.spends.map (fun spend => .spend spend.nullifier) ++
    tx.outputs.map (fun out => .output out.noteCommitment)

def Block.effects (block : Block) : List Effect := block.transactions.flatMap Transaction.effects

namespace Effect

def nullifiers : List Effect → List Hash32
  | [] => []
  | .spend nullifier :: effects => nullifier :: nullifiers effects
  | .output _ :: effects => nullifiers effects

def commitments : List Effect → List Hash32
  | [] => []
  | .spend _ :: effects => commitments effects
  | .output commitment :: effects => commitment :: commitments effects

@[simp] theorem nullifiers_append (xs ys : List Effect) :
    nullifiers (xs ++ ys) = nullifiers xs ++ nullifiers ys := by
  induction xs with
  | nil => rfl
  | cons e xs ih => cases e <;> simp [nullifiers, ih]

@[simp] theorem commitments_append (xs ys : List Effect) :
    commitments (xs ++ ys) = commitments xs ++ commitments ys := by
  induction xs with
  | nil => rfl
  | cons e xs ih => cases e <;> simp [commitments, ih]

end Effect

def Block.nullifiers (block : Block) : List Hash32 :=
  block.transactions.flatMap fun tx => tx.spends.map (·.nullifier)

def Block.commitments (block : Block) : List Hash32 :=
  block.transactions.flatMap fun tx => tx.outputs.map (·.noteCommitment)

namespace Transaction

@[simp] theorem nullifiers_effects (tx : Transaction) :
    Effect.nullifiers tx.effects = tx.spends.map (·.nullifier) := by
  have hspends (spends : List SpendDescription) :
      Effect.nullifiers (spends.map fun spend => .spend spend.nullifier) =
        spends.map (·.nullifier) := by
    induction spends with
    | nil => rfl
    | cons spend spends ih => simp [Effect.nullifiers, ih]
  have houts (outs : List OutputDescription) :
      Effect.nullifiers (outs.map fun out => .output out.noteCommitment) = [] := by
    induction outs with
    | nil => rfl
    | cons out outs ih => simp [Effect.nullifiers, ih]
  rw [effects, Effect.nullifiers_append, hspends, houts, List.append_nil]

@[simp] theorem commitments_effects (tx : Transaction) :
    Effect.commitments tx.effects = tx.outputs.map (·.noteCommitment) := by
  have hspends (spends : List SpendDescription) :
      Effect.commitments (spends.map fun spend => .spend spend.nullifier) = [] := by
    induction spends with
    | nil => rfl
    | cons spend spends ih => simp [Effect.commitments, ih]
  have houts (outs : List OutputDescription) :
      Effect.commitments (outs.map fun out => .output out.noteCommitment) =
        outs.map (·.noteCommitment) := by
    induction outs with
    | nil => rfl
    | cons out outs ih => simp [Effect.commitments, ih]
  rw [effects, Effect.commitments_append, hspends, houts, List.nil_append]

end Transaction

theorem Block.nullifiers_effects (block : Block) :
    Effect.nullifiers block.effects = block.nullifiers := by
  unfold Block.effects Block.nullifiers
  induction block.transactions with
  | nil => rfl
  | cons tx txs ih => simp [ih]

theorem Block.commitments_effects (block : Block) :
    Effect.commitments block.effects = block.commitments := by
  unfold Block.effects Block.commitments
  induction block.transactions with
  | nil => rfl
  | cons tx txs ih => simp [ih]

namespace StateStore

/-- The fold the loops of `apply_block` compute. -/
def applyEffects [Blake3] (height : UInt64) :
    StateStore → List Effect → StateStore × Except StorageError Unit
  | store, [] => (store, .ok ())
  | store, .spend nullifier :: effects =>
      if store.containsNullifier nullifier then (store, .error .doubleSpend)
      else applyEffects height (store.insertNullifier nullifier height) effects
  | store, .output commitment :: effects =>
      applyEffects height (store.appendCommitment commitment) effects

variable [Blake3] {height : UInt64}

theorem applyEffects_spends (store : StateStore) (spends : List SpendDescription)
    (effects : List Effect) :
    store.applyEffects height (spends.map (fun spend => .spend spend.nullifier) ++ effects) =
      match store.applySpends height spends with
      | (store, .error e) => (store, .error e)
      | (store, .ok ()) => store.applyEffects height effects := by
  induction spends generalizing store with
  | nil => rfl
  | cons spend spends ih =>
      simp only [List.map_cons, List.cons_append, applyEffects, applySpends]
      by_cases hspent : store.containsNullifier spend.nullifier
      · rw [if_pos hspent, if_pos hspent]
      · rw [if_neg hspent, if_neg hspent, ih]

theorem applyEffects_outputs (store : StateStore) (outs : List OutputDescription)
    (effects : List Effect) :
    store.applyEffects height (outs.map (fun out => .output out.noteCommitment) ++ effects) =
      (store.applyOutputs outs).applyEffects height effects := by
  induction outs generalizing store with
  | nil => rfl
  | cons out outs ih => exact ih _

theorem applyTransactions_eq (store : StateStore) (txs : List Transaction) :
    store.applyTransactions height txs =
      store.applyEffects height (txs.flatMap Transaction.effects) := by
  induction txs generalizing store with
  | nil => rfl
  | cons tx txs ih =>
      rw [List.flatMap_cons, Transaction.effects, List.append_assoc, applyEffects_spends,
        applyTransactions]
      cases hspends : store.applySpends height tx.spends with
      | mk store' result =>
          cases result with
          | error e => rfl
          | ok u =>
              simp only
              rw [ih, applyEffects_outputs]

/-! ## Rules for the fold -/

/-- A relation that effects in front of it do not break holds along the fold, also when
the fold is cut short. -/
theorem applyEffects_relation {R : StateStore → StateStore → Prop} (hrefl : ∀ store, R store store)
    (hspend : ∀ store after nullifier,
      R (store.insertNullifier nullifier height) after → R store after)
    (houtput : ∀ store after commitment,
      R (store.appendCommitment commitment) after → R store after)
    (store : StateStore) (effects : List Effect) :
    R store (store.applyEffects height effects).1 := by
  induction effects generalizing store with
  | nil => exact hrefl store
  | cons e effects ih =>
      cases e with
      | spend nullifier =>
          rw [applyEffects]
          by_cases hspent : store.containsNullifier nullifier
          · rw [if_pos hspent]
            exact hrefl store
          · rw [if_neg hspent]
            exact hspend store _ nullifier (ih _)
      | output commitment => exact houtput store _ commitment (ih _)

theorem applyEffects_completed {P : List Effect → StateStore → StateStore → Prop}
    (hnil : ∀ store, P [] store store)
    (hspend : ∀ effects store after nullifier,
      P effects (store.insertNullifier nullifier height) after →
        P (.spend nullifier :: effects) store after)
    (houtput : ∀ effects store after commitment,
      P effects (store.appendCommitment commitment) after →
        P (.output commitment :: effects) store after)
    {store : StateStore} {effects : List Effect}
    (hok : (store.applyEffects height effects).2 = .ok ()) :
    P effects store (store.applyEffects height effects).1 := by
  induction effects generalizing store with
  | nil => exact hnil store
  | cons e effects ih =>
      cases e with
      | spend nullifier =>
          rw [applyEffects] at hok ⊢
          by_cases hspent : store.containsNullifier nullifier
          · simp [hspent] at hok
          · rw [if_neg hspent] at hok ⊢
            exact hspend effects store _ nullifier (ih hok)
      | output commitment => exact houtput effects store _ commitment (ih hok)

/-! ## The nullifier set -/

omit [Blake3] in
@[simp] theorem containsNullifier_insertNullifier (store : StateStore) (nullifier n : Hash32) :
    (store.insertNullifier nullifier height).containsNullifier n ↔
      n = nullifier ∨ store.containsNullifier n := by
  show (store.db.nullifiers.insert nullifier height)[n]?.isSome ↔ _
  rw [Table.get_insert]
  by_cases h : nullifier = n
  · simp [h]
  · simp [h, Ne.symm h, containsNullifier]

@[simp] theorem containsNullifier_appendCommitment (store : StateStore) (commitment n : Hash32) :
    (store.appendCommitment commitment).containsNullifier n = store.containsNullifier n := rfl

def Fresh (store : StateStore) (nullifiers : List Hash32) : Prop :=
  nullifiers.Nodup ∧ ∀ n ∈ nullifiers, ¬ store.containsNullifier n

instance (store : StateStore) (nullifiers : List Hash32) : Decidable (store.Fresh nullifiers) :=
  inferInstanceAs (Decidable (_ ∧ _))

omit [Blake3] in
theorem fresh_cons (height : UInt64) {store : StateStore} {nullifier : Hash32}
    {nullifiers : List Hash32} :
    store.Fresh (nullifier :: nullifiers) ↔
      ¬ store.containsNullifier nullifier ∧
        (store.insertNullifier nullifier height).Fresh nullifiers := by
  unfold Fresh
  rw [List.nodup_cons]
  constructor
  · rintro ⟨⟨hnotMem, hnodup⟩, hunspent⟩
    refine ⟨hunspent _ List.mem_cons_self, hnodup, ?_⟩
    intro n hn hcontains
    rcases (containsNullifier_insertNullifier store nullifier n).mp hcontains with rfl | hcontains
    · exact hnotMem hn
    · exact hunspent n (List.mem_cons_of_mem _ hn) hcontains
  · rintro ⟨hnullifier, hnodup, hunspent⟩
    have hnotMem : nullifier ∉ nullifiers := fun hmem => hunspent nullifier hmem (by simp)
    refine ⟨⟨hnotMem, hnodup⟩, ?_⟩
    intro n hn hcontains
    rcases List.mem_cons.mp hn with rfl | hn
    · exact hnullifier hcontains
    · exact hunspent n hn (by simp [hcontains])

theorem applyEffects_ok_iff (height : UInt64) {store : StateStore} {effects : List Effect} :
    (store.applyEffects height effects).2 = .ok () ↔ store.Fresh (Effect.nullifiers effects) := by
  induction effects generalizing store with
  | nil => simp [applyEffects, Effect.nullifiers, Fresh]
  | cons e effects ih =>
      cases e with
      | spend nullifier =>
          rw [applyEffects, Effect.nullifiers, fresh_cons height]
          by_cases hspent : store.containsNullifier nullifier
          · simp [hspent]
          · rw [if_neg hspent, ih]
            simp [hspent]
      | output commitment =>
          rw [applyEffects, Effect.nullifiers, ih]
          rfl

theorem containsNullifier_mono {store : StateStore} {effects : List Effect} {n : Hash32}
    (h : store.containsNullifier n) :
    (store.applyEffects height effects).1.containsNullifier n := by
  revert h
  apply applyEffects_relation
    (R := fun store after => store.containsNullifier n → after.containsNullifier n) (fun _ h => h)
  · intro store after nullifier hlater h
    exact hlater ((containsNullifier_insertNullifier store nullifier n).mpr (.inr h))
  · intro store after commitment hlater h
    exact hlater h

/-- Behind a body that is applied exactly its nullifiers are newly spent. -/
theorem containsNullifier_applyEffects_iff {store : StateStore} {effects : List Effect}
    (hok : (store.applyEffects height effects).2 = .ok ()) {n : Hash32} :
    (store.applyEffects height effects).1.containsNullifier n ↔
      n ∈ Effect.nullifiers effects ∨ store.containsNullifier n := by
  revert hok
  apply applyEffects_completed
    (P := fun effects store after =>
      after.containsNullifier n ↔ n ∈ Effect.nullifiers effects ∨ store.containsNullifier n)
  · intro store
    simp [Effect.nullifiers]
  · intro effects store after nullifier hlater
    rw [hlater, containsNullifier_insertNullifier, Effect.nullifiers, List.mem_cons]
    tauto
  · intro effects store after commitment hlater
    exact hlater

theorem containsNullifier_applyEffects {store : StateStore} {effects : List Effect}
    (hok : (store.applyEffects height effects).2 = .ok ()) :
    ∀ n ∈ Effect.nullifiers effects,
      (store.applyEffects height effects).1.containsNullifier n :=
  fun _ hn => (containsNullifier_applyEffects_iff hok).mpr (.inl hn)

/-- Nothing but a spent nullifier cuts a body short. -/
theorem applyEffects_error {store : StateStore} {effects : List Effect} {e : StorageError}
    (herror : (store.applyEffects height effects).2 = .error e) : e = .doubleSpend := by
  induction effects generalizing store with
  | nil => simp [applyEffects] at herror
  | cons effect effects ih =>
      cases effect with
      | spend nullifier =>
          rw [applyEffects] at herror
          by_cases hspent : store.containsNullifier nullifier
          · rw [if_pos hspent] at herror
            exact (Except.error.inj herror).symm
          · rw [if_neg hspent] at herror
            exact ih herror
      | output commitment => exact ih herror

/-! ## The tree -/

omit [Blake3] in
@[simp] theorem tree_insertNullifier (store : StateStore) (nullifier : Hash32) :
    (store.insertNullifier nullifier height).tree = store.tree := rfl

@[simp] theorem tree_appendCommitment (store : StateStore) (commitment : Hash32) :
    (store.appendCommitment commitment).tree = store.tree.appended commitment := rfl

theorem applyEffects_tree {store : StateStore} {effects : List Effect}
    (hok : (store.applyEffects height effects).2 = .ok ()) :
    (store.applyEffects height effects).1.tree =
      (Effect.commitments effects).foldl NoteCommitmentTree.appended store.tree := by
  revert hok
  apply applyEffects_completed
    (P := fun effects store after =>
      after.tree = (Effect.commitments effects).foldl NoteCommitmentTree.appended store.tree)
  · intro store
    rfl
  · intro effects store after nullifier hlater
    exact hlater
  · intro effects store after commitment hlater
    exact hlater

theorem size_le_applyEffects (store : StateStore) (effects : List Effect) :
    store.tree.size ≤ (store.applyEffects height effects).1.tree.size := by
  apply applyEffects_relation (R := fun store after => store.tree.size ≤ after.tree.size)
    (fun _ => le_rfl)
  · intro store after nullifier hlater
    exact hlater
  · intro store after commitment hlater
    have hgrow : store.tree.size ≤ (store.appendCommitment commitment).tree.size := Nat.le_succ _
    exact hgrow.trans hlater

end StateStore

end NoirNet
