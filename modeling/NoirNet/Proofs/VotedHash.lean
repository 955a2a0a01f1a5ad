import NoirNet.Consensus.Concrete
import NoirNet.Consensus.Outcome
import NoirNet.Identifiers

/-!
# What a voted hash decides

The hash covers the header, and of the header's summaries of the body only the
state root is computed again before a block counts as applied.  Two blocks with
one hash therefore have one effect exactly when they bring the same
transactions; a transaction root that is checked would see to that.
-/

namespace NoirNet

open Lib

section

variable [Blake3]

def Block.body (block : Block) : BlockHeader × List Transaction :=
  (block.header, block.transactions)

/-- Two stores that differ at most in the marks of approval on their blocks. -/
structure SameLedger (store store' : StateStore) : Prop where
  rest : { store with db := { store.db with blocks := ∅ } } =
    { store' with db := { store'.db with blocks := ∅ } }
  bodies : ∀ hash : BlockHash,
    store.db.blocks[hash]?.map Block.body = store'.db.blocks[hash]?.map Block.body

theorem StateStore.Accepts.applyBlock_eq {store : StateStore} {block : Block}
    (haccept : store.Accepts block) (changes : Table Bytes Bytes)
    (contracts : List (Hash32 × Bytes)) :
    (store.applyBlock block changes contracts).1 =
      ((store.applyEffects block.header.height block.effects).1.finishBlock block changes
        contracts).1 := by
  obtain ⟨-, h⟩ | ⟨hreject, -⟩ := applyBlock_cases store block changes contracts
  · rw [h]
  · exact absurd haccept hreject

variable (vm : WasmRuntime) {store : StateStore} {a b : Block}

/-- Blocks with one body have one effect. -/
theorem sameLedger_of_body_eq (hbody : a.body = b.body) (ha : store.Accepts a)
    (hb : store.Accepts b) :
    SameLedger (applyExecuted vm store a).1 (applyExecuted vm store b).1 where
  rest := by
    rw [applyExecuted, applyExecuted, ha.applyBlock_eq, hb.applyBlock_eq]
    cases a
    cases b
    cases hbody
    rfl
  bodies := by
    intro hash
    have hhash : a.blockHash = b.blockHash :=
      congrArg (fun body : BlockHeader × List Transaction => body.1.hash) hbody
    rw [applyExecuted, applyExecuted, StateStore.blocks_applyBlock ha,
      StateStore.blocks_applyBlock hb, hhash]
    split
    · exact congrArg some hbody
    · rfl

theorem applyExecuted_eq_iff (hhash : a.blockHash = b.blockHash) (ha : store.Accepts a)
    (hb : store.Accepts b) :
    (applyExecuted vm store a).1 = (applyExecuted vm store b).1 ↔ a = b := by
  constructor
  · intro h
    have hblocks := congrArg (fun store : StateStore => store.db.blocks[b.blockHash]?) h
    simp only [applyExecuted, StateStore.blocks_applyBlock ha, StateStore.blocks_applyBlock hb,
      hhash, if_true] at hblocks
    exact Option.some.inj hblocks
  · rintro rfl
    rfl

theorem sameLedger_iff (hhash : a.blockHash = b.blockHash) (hheader : a.header = b.header)
    (ha : store.Accepts a) (hb : store.Accepts b) :
    SameLedger (applyExecuted vm store a).1 (applyExecuted vm store b).1 ↔
      a.transactions = b.transactions := by
  constructor
  · intro h
    have hbodies := h.bodies b.blockHash
    simp only [applyExecuted, StateStore.blocks_applyBlock ha, StateStore.blocks_applyBlock hb,
      hhash, if_true, Option.map_some, Option.some.injEq] at hbodies
    exact congrArg Prod.snd hbodies
  · intro htransactions
    exact sameLedger_of_body_eq vm (Prod.ext hheader htransactions) ha hb

/-! ## Two blocks under one hash -/

variable [Nova]

theorem accepted_of_applied {isValidator : Bool} {now : UInt64} {mempool : PrivateMempool}
    {block : Block} {root : StateRoot}
    (h : (executeAndApplyBlock vm isValidator now store mempool block).2.2 = .applied root) :
    Passes isValidator now block ∧ store.Accepts block ∧
      (executeAndApplyBlock vm isValidator now store mempool block).1 =
        (applyExecuted vm store block).1 := by
  obtain ⟨hpass, haccept⟩ := (outcome_written_iff vm mempool).mp (by rw [h]; rfl)
  refine ⟨hpass, haccept, ?_⟩
  rw [execute_of_accepts vm mempool hpass haccept]
  split <;> rfl

/-- Two blocks with one hash that both count as applied on one store, by whatever
nodes: the stores are equal exactly when the blocks are, and equal up to marks of
approval exactly when the transactions are.  That is so where both blocks bear
the transaction root of their own body. -/
theorem voted_hash_store_iff {isValidator isValidator' : Bool} {now now' : UInt64}
    {mempool mempool' : PrivateMempool} {root root' : StateRoot}
    (hfree : Blake3.CollisionFree {bytes | bytes ∈ a.hashed ++ b.hashed})
    (hhash : a.blockHash = b.blockHash)
    (ha : (executeAndApplyBlock vm isValidator now store mempool a).2.2 = .applied root)
    (hb : (executeAndApplyBlock vm isValidator' now' store mempool' b).2.2 = .applied root') :
    let storeA := (executeAndApplyBlock vm isValidator now store mempool a).1
    let storeB := (executeAndApplyBlock vm isValidator' now' store mempool' b).1
    (storeA = storeB ↔ a = b) ∧
      (SameLedger storeA storeB ↔ a.transactions = b.transactions) ∧
      (a.header.txRoot = Block.computeTxRoot a.transactions →
        b.header.txRoot = Block.computeTxRoot b.transactions →
        a.header.txRoot ≠ Hash32.ZERO → a.transactions = b.transactions) := by
  obtain ⟨hpassA, hacceptA, hstoreA⟩ := accepted_of_applied vm ha
  obtain ⟨-, hacceptB, hstoreB⟩ := accepted_of_applied vm hb
  have hheader : a.header = b.header :=
    BlockHeader.eq_of_hash_eq hfree (by simp [Block.hashed]) (by simp [Block.hashed]) hhash
  intro storeA storeB
  rw [show storeA = (applyExecuted vm store a).1 from hstoreA,
    show storeB = (applyExecuted vm store b).1 from hstoreB]
  refine ⟨applyExecuted_eq_iff vm hhash hacceptA hacceptB,
    sameLedger_iff vm hhash hheader hacceptA hacceptB, ?_⟩
  intro hrootA hrootB hzero
  apply Block.transactions_eq_of_computeTxRoot_eq hfree
  · intro tx htx
    exact (verifyTransaction_ok_iff.mp (hpassA.verified tx htx)).2
  · rwa [← hrootA]
  · rw [← hrootA, ← hrootB, hheader]

end

/-! ## Two deployments under one hash -/

section

attribute [local instance] Blake3.successor Nova.rejecting

def deploying (code : UInt8) : Block where
  header := { BlockHeader.blank 0 (fill 32 0) with stateRoot := fill 32 32 }
  transactions := [{ Transaction.blank [] [] [code] with deployContract := some [code] }]
  aggregateProof := []
  blsAggregateSig := [1]
  validatorBitfield := 0

def idleRuntime : WasmRuntime := fun _ _ _ _ => some { stateChanges := ∅ }

def executed (block : Block) : StateStore × PrivateMempool × BlockOutcome :=
  executeAndApplyBlock idleRuntime true 0 StateStore.empty {} block

theorem deployments_share_hash :
    (deploying 1).blockHash = (deploying 5).blockHash ∧
      (executed (deploying 1)).2.2 = .applied (fill 32 32) ∧
      (executed (deploying 5)).2.2 = .applied (fill 32 32) ∧
      (executed (deploying 1)).1.getContractCode (blake3Of [1]) = some [1] ∧
      (executed (deploying 5)).1.getContractCode (blake3Of [1]) = none := by
  decide +kernel

theorem deployments_store_iff :
    ((executed (deploying 1)).1 = (executed (deploying 5)).1 ↔ deploying 1 = deploying 5) ∧
      (SameLedger (executed (deploying 1)).1 (executed (deploying 5)).1 ↔
        (deploying 1).transactions = (deploying 5).transactions) ∧
      ((deploying 1).header.txRoot = Block.computeTxRoot (deploying 1).transactions →
        (deploying 5).header.txRoot = Block.computeTxRoot (deploying 5).transactions →
        (deploying 1).header.txRoot ≠ Hash32.ZERO →
        (deploying 1).transactions = (deploying 5).transactions) := by
  have hfree : Blake3.CollisionFree
      {bytes | bytes ∈ (deploying 1).hashed ++ (deploying 5).hashed} :=
    Blake3.collisionFree_of_nodup (by decide +kernel)
  have hhash : (deploying 1).blockHash = (deploying 5).blockHash := by decide +kernel
  have happlied (code : UInt8) (hcode : code = 1 ∨ code = 5) :
      (executed (deploying code)).2.2 = .applied (fill 32 32) := by
    rcases hcode with rfl | rfl <;> decide +kernel
  have ha := happlied 1 (.inl rfl)
  have hb := happlied 5 (.inr rfl)
  unfold executed at ha hb ⊢
  exact voted_hash_store_iff idleRuntime hfree hhash ha hb

end

end NoirNet
