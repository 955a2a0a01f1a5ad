import Mathlib.Data.List.Sort
import NoirNet.Storage.StateStore

/-!
# The private mempool

`noirnet_mempool::pool`.  The pool shares the node's state store, which every
method that reads it takes as an argument.
-/

namespace NoirNet

open Lib

inductive MempoolError where
  | full
  | alreadyExists
  | feeTooLow (min : UInt64)
  | invalidFormat (reason : String)
  | doubleSpend
  | alreadySpent
  deriving DecidableEq

structure PrivateMempool where
  txs : Table TxId Transaction := ∅
  pendingNullifiers : Table Hash32 TxId := ∅

namespace PrivateMempool

/-- The nullifier checks of `insert`, in the order of the spends. -/
def checkNullifiers (pool : PrivateMempool) (state : StateStore) :
    List SpendDescription → Except MempoolError Unit
  | [] => .ok ()
  | spend :: spends =>
      if state.containsNullifier spend.nullifier then .error .alreadySpent
      else if pool.pendingNullifiers.contains spend.nullifier then .error .doubleSpend
      else checkNullifiers pool state spends

def insert [Blake3] (pool : PrivateMempool) (state : StateStore) (tx : Transaction) :
    Except MempoolError PrivateMempool := do
  if pool.txs.size ≥ MAX_MEMPOOL_SIZE then
    throw .full
  let txid := tx.txId
  if pool.txs.contains txid then
    throw .alreadyExists
  match tx.validateFormat with
  | .error e => throw (.invalidFormat e.message)
  | .ok () => pure ()
  if tx.fee < MIN_FEE then
    throw (.feeTooLow MIN_FEE)
  pool.checkNullifiers state tx.spends
  return { txs := pool.txs.insert txid tx
           pendingNullifiers := tx.spends.foldl
             (fun pending spend => pending.insert spend.nullifier txid) pool.pendingNullifiers }

/-- The greedy loop of `select_for_block`. -/
def selectFrom (maxTxs : Nat) (maxGas : UInt64) :
    List Transaction → UInt64 → List Transaction → List Transaction
  | selected, _, [] => selected
  | selected, totalGas, tx :: candidates =>
      if selected.length ≥ maxTxs then selected
      else if totalGas + tx.gasLimit > maxGas then
        selectFrom maxTxs maxGas selected totalGas candidates
      else selectFrom maxTxs maxGas (selected ++ [tx]) (totalGas + tx.gasLimit) candidates

/-- `PrivateMempool::select_for_block`; `shuffle` is what the random generator
makes of the candidates. -/
def selectForBlock (pool : PrivateMempool) (shuffle : List Transaction → List Transaction)
    (maxTxs : Nat) (maxGas : UInt64) : List Transaction :=
  let candidates := pool.txs.values.filter fun tx => tx.validateFormat.toBool
  let sorted := (shuffle candidates).insertionSort fun a b => b.fee ≤ a.fee
  selectFrom maxTxs maxGas [] 0 sorted

def removeMined [Blake3] (pool : PrivateMempool) (txs : List Transaction) : PrivateMempool :=
  txs.foldl
    (fun pool tx =>
      { txs := pool.txs.erase tx.txId
        pendingNullifiers := tx.spends.foldl
          (fun pending spend => pending.erase spend.nullifier) pool.pendingNullifiers })
    pool

end PrivateMempool

/-! ## Runs of the pool -/

inductive PoolOp where
  | insert (tx : Transaction)
  /-- `apply_block`, and `remove_mined` if it succeeds. -/
  | commit (block : Block) (contractStateChanges : Table Bytes Bytes)
      (newContracts : List (Hash32 × Bytes))

/-- The pool and its store; a transaction that is admitted is the output. -/
def poolMachine [Blake3] : Machine (PrivateMempool × StateStore) PoolOp Transaction where
  step
    | (pool, store), .insert tx =>
        match pool.insert store tx with
        | .ok pool => ((pool, store), [tx])
        | .error _ => ((pool, store), [])
    | (pool, store), .commit block changes contracts =>
        match store.applyBlock block changes contracts with
        | (store, .ok _) => ((pool.removeMined block.transactions, store), [])
        | (store, .error _) => ((pool, store), [])

end NoirNet
