import Mathlib.Logic.Function.Basic
import NoirNet.Mempool

/-!
# Calls of `insert` at work on one pool

`PrivateMempool::insert` takes `&self`.  Its maps are `DashMap`s and the
nullifier set is a `sled` tree, so each operation on one of them is atomic and
nothing is held between two of them.  A call is therefore a sequence of
operations, and calls of different tasks interleave.
-/

namespace NoirNet

open Lib

/-- Where a call of `insert` stands: the operation it performs next. -/
inductive InsertStage where
  /-- `txs.len()` -/
  | len
  /-- `txs.contains_key` -/
  | containsTx
  /-- `state.nullifiers.contains`, with the spends left after this one -/
  | containsSpent (spend : SpendDescription) (left : List SpendDescription)
  /-- `pending_nullifiers.contains_key` -/
  | containsPending (spend : SpendDescription) (left : List SpendDescription)
  /-- `pending_nullifiers.insert` -/
  | reserve (spend : SpendDescription) (left : List SpendDescription)
  /-- `txs.insert` -/
  | store
  | returned (result : Except MempoolError Unit)

namespace InsertStage

def reserving : List SpendDescription → InsertStage
  | [] => .store
  | spend :: left => .reserve spend left

def checking (spends : List SpendDescription) : List SpendDescription → InsertStage
  | [] => reserving spends
  | spend :: left => .containsSpent spend left

/-- The checks of `insert` that read the transaction alone. -/
def admitting (tx : Transaction) : InsertStage :=
  match tx.validateFormat with
  | .error e => .returned (.error (.invalidFormat e.message))
  | .ok () =>
      if tx.fee < MIN_FEE then .returned (.error (.feeTooLow MIN_FEE))
      else checking tx.spends tx.spends

end InsertStage

namespace PrivateMempool

variable [Blake3]

/-- One operation of a call of `insert`. -/
def insertStep (state : StateStore) (tx : Transaction) :
    PrivateMempool × InsertStage → PrivateMempool × InsertStage
  | (pool, .len) =>
      (pool, if pool.txs.size ≥ MAX_MEMPOOL_SIZE then .returned (.error .full) else .containsTx)
  | (pool, .containsTx) =>
      (pool, if pool.txs.contains tx.txId then .returned (.error .alreadyExists)
        else .admitting tx)
  | (pool, .containsSpent spend left) =>
      (pool, if state.containsNullifier spend.nullifier then .returned (.error .alreadySpent)
        else .containsPending spend left)
  | (pool, .containsPending spend left) =>
      (pool, if pool.pendingNullifiers.contains spend.nullifier then
          .returned (.error .doubleSpend)
        else .checking tx.spends left)
  | (pool, .reserve spend left) =>
      ({ pool with pendingNullifiers := pool.pendingNullifiers.insert spend.nullifier tx.txId },
        .reserving left)
  | (pool, .store) =>
      ({ pool with txs := pool.txs.insert tx.txId tx }, .returned (.ok ()))
  | (pool, .returned result) => (pool, .returned result)

/-- A call that no other call interrupts; it takes at most three operations a spend,
and three more. -/
def insertCall (pool : PrivateMempool) (state : StateStore) (tx : Transaction) :
    PrivateMempool × InsertStage :=
  (insertStep state tx)^[3 * tx.spends.length + 3] (pool, .len)

end PrivateMempool

/-- Calls of `insert`, one for each `i`, on one pool: every input lets one of them
perform its next operation. -/
def insertMachine [Blake3] {ι : Type} [DecidableEq ι] (state : StateStore)
    (txs : ι → Transaction) : Machine (PrivateMempool × (ι → InsertStage)) ι Empty where
  step s i :=
    let (pool, stage) := PrivateMempool.insertStep state (txs i) (s.1, s.2 i)
    ((pool, Function.update s.2 i stage), [])

/-! ## One call after another -/

inductive NodeOp where
  | insert (tx : Transaction)
  | applyBlock (block : Block) (contractStateChanges : Table Bytes Bytes)
      (newContracts : List (Hash32 × Bytes))
  | removeMined (block : Block)

/-- The pool, its store, and the blocks that were applied. -/
structure PooledNode where
  pool : PrivateMempool := {}
  store : StateStore
  applied : List Block := []

def nodeMachine [Blake3] : Machine PooledNode NodeOp Empty where
  step
    | s, .insert tx => ({ s with pool := (s.pool.insertCall s.store tx).1 }, [])
    | s, .applyBlock block changes contracts =>
        match s.store.applyBlock block changes contracts with
        | (store, .ok _) => ({ s with store := store, applied := s.applied ++ [block] }, [])
        | (store, .error _) => ({ s with store := store }, [])
    | s, .removeMined block => ({ s with pool := s.pool.removeMined block.transactions }, [])

/-- `remove_mined` is called for applied blocks. -/
def PooledNode.Allows (s : PooledNode) : NodeOp → Prop
  | .removeMined block => block ∈ s.applied
  | .insert _ | .applyBlock .. => True

instance (s : PooledNode) : DecidablePred s.Allows
  | .removeMined block => inferInstanceAs (Decidable (block ∈ s.applied))
  | .insert _ => isTrue trivial
  | .applyBlock .. => isTrue trivial

end NoirNet
