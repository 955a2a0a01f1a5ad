import NoirNet.Proofs.Reservation

/-!
# Interleaved calls of `insert`

`insert` checks first and reserves later, in operations of their own.  A call
that reserves a nullifier can take it from a call that reserved it since the
check, and a call that stores its transaction can find the pool filled since it
looked.  As long as neither happens, the reservations held between check and
store keep the pool as calls in sequence do.

* `InsertStage.Sound`: what the stage of a call says about the pool;
* `Undisturbed`: the operation finds what the checks before it found;
* `interleaved_insert`: the run;
* `racing_transfers`: two calls that are both past their checks.
-/

namespace NoirNet

open Lib

/-- The spends that are not `left` have nullifiers with this property. -/
def Transaction.Beyond (tx : Transaction) (left : List SpendDescription)
    (holds : Hash32 → Prop) : Prop :=
  ∀ spend ∈ tx.spends, spend ∈ left ∨ holds spend.nullifier

theorem Transaction.Beyond.next {tx : Transaction} {spend : SpendDescription}
    {left : List SpendDescription} {holds : Hash32 → Prop} (h : tx.Beyond (spend :: left) holds)
    (hspend : holds spend.nullifier) : tx.Beyond left holds := by
  intro spend' hmem
  rcases h spend' hmem with hleft | hholds
  · rcases List.mem_cons.mp hleft with rfl | hleft
    · exact .inr hspend
    · exact .inl hleft
  · exact .inr hholds

theorem Transaction.Beyond.mono {tx : Transaction} {left : List SpendDescription}
    {holds holds' : Hash32 → Prop} (h : tx.Beyond left holds) (himp : ∀ n, holds n → holds' n) :
    tx.Beyond left holds' :=
  fun spend hmem => (h spend hmem).imp_right (himp spend.nullifier)

theorem Transaction.beyond_nil {tx : Transaction} {holds : Hash32 → Prop} :
    tx.Beyond [] holds ↔ ∀ n ∈ tx.nullifiers, holds n := by
  simp [Beyond]

theorem Transaction.beyond_self (tx : Transaction) (holds : Hash32 → Prop) :
    tx.Beyond tx.spends holds := fun _ hmem => .inl hmem

/-! ## One operation -/

namespace InsertStage

variable [Blake3]

def Held (pool : PrivateMempool) (tx : Transaction) (n : Hash32) : Prop :=
  pool.pendingNullifiers[n]? = some tx.txId

/-- What a call has found and done before it stands at a stage. -/
def Sound (pool : PrivateMempool) (state : StateStore) (tx : Transaction) : InsertStage → Prop
  | .len | .containsTx | .returned _ => True
  | .containsSpent spend left => tx.Beyond (spend :: left) (¬ state.containsNullifier ·)
  | .containsPending _ left => tx.Beyond left (¬ state.containsNullifier ·)
  | .reserve spend left =>
      tx.Beyond [] (¬ state.containsNullifier ·) ∧ tx.Beyond (spend :: left) (Held pool tx)
  | .store => tx.Beyond [] (¬ state.containsNullifier ·) ∧ tx.Beyond [] (Held pool tx)

/-- The nullifier to be reserved is not reserved for another transaction, and there
is room for the transaction to be stored. -/
def Undisturbed (pool : PrivateMempool) (tx : Transaction) : InsertStage → Prop
  | .reserve spend _ =>
      ∀ id, pool.pendingNullifiers[spend.nullifier]? = some id → id = tx.txId
  | .store => pool.txs.size < MAX_MEMPOOL_SIZE ∨ pool.txs.contains tx.txId
  | .len | .containsTx | .containsSpent .. | .containsPending .. | .returned _ => True

theorem Sound.mono {pool pool' : PrivateMempool} {state : StateStore} {tx : Transaction}
    {stage : InsertStage} (h : stage.Sound pool state tx)
    (hkeep : ∀ (n : Hash32) (id : TxId), pool.pendingNullifiers[n]? = some id →
      pool'.pendingNullifiers[n]? = some id) : stage.Sound pool' state tx := by
  cases stage with
  | len | containsTx | containsSpent | containsPending | returned => exact h
  | reserve spend left => exact ⟨h.1, h.2.mono fun n hn => hkeep n tx.txId hn⟩
  | store => exact ⟨h.1, h.2.mono fun n hn => hkeep n tx.txId hn⟩

variable {pool : PrivateMempool} {state : StateStore} {tx : Transaction}

theorem sound_reserving {left : List SpendDescription}
    (hunspent : tx.Beyond [] (¬ state.containsNullifier ·))
    (hheld : tx.Beyond left (Held pool tx)) :
    (reserving left).Sound pool state tx := by
  cases left with
  | nil => exact ⟨hunspent, hheld⟩
  | cons spend left => exact ⟨hunspent, hheld⟩

theorem sound_checking {left : List SpendDescription}
    (hunspent : tx.Beyond left (¬ state.containsNullifier ·)) :
    (checking tx.spends left).Sound pool state tx := by
  cases left with
  | nil => exact sound_reserving hunspent (tx.beyond_self _)
  | cons spend left => exact hunspent

theorem sound_admitting : (admitting tx).Sound pool state tx := by
  unfold admitting
  cases tx.validateFormat with
  | error e => trivial
  | ok u =>
      by_cases hfee : tx.fee < MIN_FEE
      · simp only [if_pos hfee]
        trivial
      · simp only [if_neg hfee]
        exact sound_checking (tx.beyond_self _)

end InsertStage

namespace PrivateMempool

variable [Blake3] {pool : PrivateMempool} {state : StateStore} {tx : Transaction}

theorem get_reserve_of_get {nullifier n : Hash32} {id : TxId}
    (hfree : ∀ id, pool.pendingNullifiers[nullifier]? = some id → id = tx.txId)
    (h : pool.pendingNullifiers[n]? = some id) :
    (pool.pendingNullifiers.insert nullifier tx.txId)[n]? = some id := by
  rw [Table.get_insert]
  by_cases hn : nullifier = n
  · rw [if_pos hn, hfree id (hn ▸ h)]
  · rw [if_neg hn, h]

/-- An undisturbed operation keeps the invariant of the pool, what the stage of its
call says, and every reservation. -/
theorem insertStep_sound {stage : InsertStage} (hpool : pool.Reserving state)
    (hstage : stage.Sound pool state tx) (hgood : stage.Undisturbed pool tx) :
    let next := insertStep state tx (pool, stage)
    next.1.Reserving state ∧ next.2.Sound next.1 state tx ∧
      ∀ (n : Hash32) (id : TxId), pool.pendingNullifiers[n]? = some id →
        next.1.pendingNullifiers[n]? = some id := by
  have hsame (n : Hash32) (id : TxId) (h : pool.pendingNullifiers[n]? = some id) :
      pool.pendingNullifiers[n]? = some id := h
  cases stage with
  | len =>
      refine ⟨hpool, ?_, hsame⟩
      simp only [insertStep]
      split <;> trivial
  | containsTx =>
      refine ⟨hpool, ?_, hsame⟩
      simp only [insertStep]
      split
      · trivial
      · exact InsertStage.sound_admitting
  | containsSpent spend left =>
      refine ⟨hpool, ?_, hsame⟩
      simp only [insertStep]
      split
      · trivial
      · rename_i hunspent
        have hchecked : tx.Beyond (spend :: left) (¬ state.containsNullifier ·) := hstage
        exact hchecked.next hunspent
  | containsPending spend left =>
      refine ⟨hpool, ?_, hsame⟩
      simp only [insertStep]
      split
      · trivial
      · exact InsertStage.sound_checking hstage
  | reserve spend left =>
      have hkeep (n : Hash32) (id : TxId) (h : pool.pendingNullifiers[n]? = some id) :
          (pool.pendingNullifiers.insert spend.nullifier tx.txId)[n]? = some id :=
        get_reserve_of_get hgood h
      refine ⟨hpool.reserve _ hkeep, ?_, hkeep⟩
      apply InsertStage.sound_reserving hstage.1
      have hheld := hstage.2.mono fun n hn => hkeep n tx.txId hn
      apply hheld.next
      rw [Table.get_insert, if_pos rfl]
  | store =>
      refine ⟨hpool.hold ?_ hgood, trivial, hsame⟩
      intro n hn
      exact ⟨Transaction.beyond_nil.mp hstage.2 n hn, Transaction.beyond_nil.mp hstage.1 n hn⟩
  | returned result => exact ⟨hpool, trivial, hsame⟩

end PrivateMempool

/-! ## Runs -/

section

variable [Blake3] {ι : Type}

def Undisturbed (txs : ι → Transaction) (s : PrivateMempool × (ι → InsertStage)) (i : ι) : Prop :=
  (s.2 i).Undisturbed s.1 (txs i)

variable [DecidableEq ι]

/-- The invariant of the pool, and what the stages of all calls say. -/
structure Interleaved (state : StateStore) (txs : ι → Transaction)
    (s : PrivateMempool × (ι → InsertStage)) : Prop where
  reserving : s.1.Reserving state
  sound : ∀ i, (s.2 i).Sound s.1 state (txs i)

theorem Interleaved.step {state : StateStore} {txs : ι → Transaction}
    {s : PrivateMempool × (ι → InsertStage)} (h : Interleaved state txs s) {i : ι}
    (hgood : Undisturbed txs s i) :
    Interleaved state txs ((insertMachine state txs).step s i).1 := by
  obtain ⟨hpool, hstage, hkeep⟩ := PrivateMempool.insertStep_sound h.reserving (h.sound i) hgood
  refine ⟨hpool, ?_⟩
  intro j
  by_cases hj : j = i
  · subst hj
    simp only [insertMachine, Function.update_self]
    exact hstage
  · simp only [insertMachine, Function.update_of_ne hj]
    exact (h.sound j).mono hkeep

/-- Any number of calls of `insert` on a pool that was used in sequence before, in
any interleaving in which no operation is disturbed: in every state reached no two
pooled transactions share a nullifier, and the pool is not over its size. -/
theorem interleaved_insert (store : StateStore) (ops : List NodeOp)
    (hops : nodeMachine.Admissible PooledNode.Allows { store := store } ops)
    (txs : ι → Transaction) (schedule : List ι)
    (hgood : (insertMachine (nodeMachine.final { store := store } ops).store txs).Admissible
      (Undisturbed txs) ((nodeMachine.final { store := store } ops).pool, fun _ => .len) schedule) :
    ∀ schedule', schedule' <+: schedule →
      let pool := ((insertMachine (nodeMachine.final { store := store } ops).store txs).final
        ((nodeMachine.final { store := store } ops).pool, fun _ => .len) schedule').1
      pool.Conflictless ∧ pool.txs.size ≤ MAX_MEMPOOL_SIZE := by
  rintro schedule' ⟨rest, rfl⟩
  have hstart : Interleaved (nodeMachine.final { store := store } ops).store txs
      ((nodeMachine.final { store := store } ops).pool, fun _ => .len) :=
    ⟨(PooledNode.sound_final hops).reserving, fun _ => trivial⟩
  have h := (insertMachine _ txs).invariant (Interleaved _ txs) (fun _ _ hgood h => h.step hgood)
    hstart ((insertMachine _ txs).admissible_append.mp hgood).1
  exact ⟨h.reserving.conflictless, h.reserving.bounded⟩

end

/-! ## Two transfers of one note -/

section

attribute [local instance] Blake3.sum

def rivals (second : Bool) : Transaction := if second then payment 2 else payment 1

/-- The first call is past its checks when the second runs, and ends after it. -/
def overtaken : List Bool :=
  List.replicate 4 false ++ List.replicate 6 true ++ List.replicate 2 false

theorem racing_transfers :
    ¬ ∀ schedule : List Bool,
      let pool := ((insertMachine StateStore.empty rivals).final ({}, fun _ => .len) schedule).1
      pool.Conflictless ∧ pool.txs.size ≤ MAX_MEMPOOL_SIZE := by
  intro h
  have hfirst : ((insertMachine StateStore.empty rivals).final ({}, fun _ => .len)
      overtaken).1.txs[(payment 1).txId]? = some (payment 1) := by decide +kernel
  have hsecond : ((insertMachine StateStore.empty rivals).final ({}, fun _ => .len)
      overtaken).1.txs[(payment 2).txId]? = some (payment 2) := by decide +kernel
  have hdisjoint := (h overtaken).1 _ _ _ _ (by decide +kernel) hfirst hsecond
  have hshared : fill 32 7 ∈ (payment 1).nullifiers ∧ fill 32 7 ∈ (payment 2).nullifiers := by
    decide
  exact hdisjoint hshared.1 hshared.2

instance {ι : Type} (txs : ι → Transaction) (s : PrivateMempool × (ι → InsertStage)) (i : ι) :
    Decidable (Undisturbed txs s i) :=
  match h : s.2 i with
  | .reserve spend _ =>
      decidable_of_iff
        (∀ id ∈ s.1.pendingNullifiers[spend.nullifier]?, id = (txs i).txId)
        (by simp [Undisturbed, InsertStage.Undisturbed, h])
  | .store =>
      decidable_of_iff
        (s.1.txs.size < MAX_MEMPOOL_SIZE ∨ s.1.txs.contains (txs i).txId)
        (by simp [Undisturbed, InsertStage.Undisturbed, h])
  | .len | .containsTx | .containsSpent .. | .containsPending .. | .returned _ =>
      isTrue (by simp [Undisturbed, InsertStage.Undisturbed, h])

def takingTurns : List Bool :=
  [false, true, false, true, false, true, false, false, true, false]

theorem interleaved_transfers :
    let final := (insertMachine StateStore.empty rivals).final ({}, fun _ => .len) takingTurns
    final.1.txs[(payment 1).txId]? = some (payment 1) ∧
      final.1.txs[(payment 2).txId]? = none ∧
      final.1.Conflictless ∧ final.1.txs.size ≤ MAX_MEMPOOL_SIZE := by
  have hgood : (insertMachine StateStore.empty rivals).Admissible (Undisturbed rivals)
      ({}, fun _ => .len) takingTurns := by decide +kernel
  have hpool := interleaved_insert StateStore.empty [] trivial rivals takingTurns hgood
    takingTurns (List.prefix_refl _)
  simp only [Machine.final_nil] at hpool
  exact ⟨by decide +kernel, by decide +kernel, hpool⟩

end

end NoirNet
