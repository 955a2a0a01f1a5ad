import NoirNet.Concrete
import NoirNet.Proofs.Selection
import NoirNet.Rpc

/-!
# Transactions submitted by RPC

`send_transaction` reads a transaction off the front of the bytes and hands on
all of them.  So a transaction has many submissions: capital letters, and any
bytes behind it.  They share one id, and a pool takes one of them.

* `sendTransaction_ok_iff`: what is accepted, and what is done then;
* `sendTransaction_of_pooled`: what is said about a transaction that is in the pool;
* `submissions_admitted_once`: any submissions in a row.
-/

namespace NoirNet

open Lib Lib.Wire

/-- The text spells the transaction in hexadecimal, with anything behind it. -/
def Spelled (tx : Transaction) (trailing : Bytes) (txHex : String) : Prop :=
  tx.Fits ∧ txHex.toList.map Char.toLower = Hex.encodeChars (tx.serialize ++ trailing)

/-! ## What is accepted -/

section

variable [Blake3]

theorem sendTransaction_of_read {pool : PrivateMempool} {store : StateStore} {txHex : String}
    {bytes : Bytes} {tx : Transaction} (hbytes : Hex.decode txHex = some bytes)
    (htx : Reader.decodePrefix Transaction.deserialize bytes = some tx) :
    Rpc.sendTransaction pool store txHex =
      ((pool.insert store tx).mapError fun e =>
        RpcError.owned (-32000) ("Mempool error: " ++ e.debug)).map
          fun pool => (pool, { broadcast := bytes, txId := Hex.encode tx.txId.toList }) := by
  rw [Rpc.sendTransaction, hbytes]
  dsimp only
  rw [htx]
  dsimp only
  cases pool.insert store tx with
  | error e => rfl
  | ok pool => rfl

/-- A text is accepted exactly if it spells a transaction that the pool admits; the pool is
then the one with this transaction, the whole of the bytes goes out, and the id is that of the
transaction alone. -/
theorem sendTransaction_ok_iff {pool pool' : PrivateMempool} {store : StateStore}
    {txHex : String} {sent : SentTransaction} :
    Rpc.sendTransaction pool store txHex = .ok (pool', sent) ↔
      ∃ tx trailing, Spelled tx trailing txHex ∧ pool.insert store tx = .ok pool' ∧
        sent = { broadcast := tx.serialize ++ trailing, txId := Hex.encode tx.txId.toList } := by
  constructor
  · intro h
    cases hbytes : Hex.decode txHex with
    | none =>
        rw [Rpc.sendTransaction, hbytes] at h
        cases h
    | some bytes =>
        cases htx : Reader.decodePrefix Transaction.deserialize bytes with
        | none =>
            rw [Rpc.sendTransaction, hbytes] at h
            dsimp only at h
            rw [htx] at h
            cases h
        | some tx =>
            rw [sendTransaction_of_read hbytes htx] at h
            obtain ⟨hfits, trailing, rfl⟩ := Transaction.exact.decodePrefix_iff.mp htx
            cases hinsert : pool.insert store tx with
            | error e =>
                rw [hinsert] at h
                cases h
            | ok inserted =>
                rw [hinsert] at h
                cases h
                exact ⟨tx, trailing, ⟨hfits, Hex.decode_eq_some_iff.mp hbytes⟩, hinsert, rfl⟩
  · rintro ⟨tx, trailing, ⟨hfits, htext⟩, hinsert, rfl⟩
    rw [sendTransaction_of_read (Hex.decode_eq_some_iff.mpr htext)
      (Transaction.exact.decodePrefix_append hfits trailing), hinsert]
    rfl

/-! ## A transaction that is pooled -/

theorem insert_of_pooled {pool : PrivateMempool} {store : StateStore} {tx t : Transaction}
    (h : pool.txs[tx.txId]? = some t) :
    pool.insert store tx =
      .error (if pool.txs.size ≥ MAX_MEMPOOL_SIZE then .full else .alreadyExists) := by
  have hcontains : pool.txs.contains tx.txId := by
    rw [Std.ExtTreeMap.contains_eq_isSome_getElem?, h]
    rfl
  unfold PrivateMempool.insert
  by_cases hfull : pool.txs.size ≥ MAX_MEMPOOL_SIZE
  · rw [if_pos hfull, if_pos hfull]
    rfl
  · rw [if_neg hfull, if_neg hfull]
    simp only [hcontains, if_true]
    rfl

theorem sendTransaction_of_pooled {pool : PrivateMempool} {store : StateStore}
    {tx t : Transaction} {trailing : Bytes} {txHex : String} (hspelled : Spelled tx trailing txHex)
    (h : pool.txs[tx.txId]? = some t) :
    ∃ e, (e = .full ∨ e = .alreadyExists) ∧ Rpc.sendTransaction pool store txHex =
      .error (.owned (-32000) ("Mempool error: " ++ MempoolError.debug e)) := by
  refine ⟨if pool.txs.size ≥ MAX_MEMPOOL_SIZE then .full else .alreadyExists, ?_, ?_⟩
  · split
    · exact .inl rfl
    · exact .inr rfl
  · rw [sendTransaction_of_read (Hex.decode_eq_some_iff.mpr hspelled.2)
      (Transaction.exact.decodePrefix_append hspelled.1 trailing), insert_of_pooled h]
    rfl

/-! ## Submissions in a row -/

omit [Blake3] in
theorem hexId_inj {id id' : TxId} (h : Hex.encode id.toList = Hex.encode id'.toList) :
    id = id' :=
  Vector.toList_inj.mp (Hex.encode_injective h)

def Admitted (texts : List String) (pool : PrivateMempool) (sent : SentTransaction) : Prop :=
  ∃ txHex ∈ texts, ∃ tx trailing, Spelled tx trailing txHex ∧
    sent = { broadcast := tx.serialize ++ trailing, txId := Hex.encode tx.txId.toList } ∧
    pool.txs[tx.txId]? = some tx

theorem Admitted.inserted {texts more : List String} {pool : PrivateMempool}
    {sent : SentTransaction} (h : Admitted texts pool sent) {tx : Transaction}
    (hnew : pool.txs[tx.txId]? = none) : Admitted (texts ++ more) (pool.inserted tx) sent := by
  obtain ⟨txHex, hmem, old, trailing, hspelled, hsent, hpooled⟩ := h
  refine ⟨txHex, List.mem_append_left more hmem, old, trailing, hspelled, hsent, ?_⟩
  rw [PrivateMempool.get_inserted]
  by_cases hsame : tx.txId = old.txId
  · rw [hsame, hpooled] at hnew
    cases hnew
  · rwa [if_neg hsame]

theorem Admitted.mono {texts more : List String} {pool : PrivateMempool}
    {sent : SentTransaction} (h : Admitted texts pool sent) :
    Admitted (texts ++ more) pool sent := by
  obtain ⟨txHex, hmem, hrest⟩ := h
  exact ⟨txHex, List.mem_append_left more hmem, hrest⟩

/-- The ids that were returned differ, and what was admitted is pooled. -/
structure AdmittedOnce (texts : List String) (pool : PrivateMempool)
    (sents : List SentTransaction) : Prop where
  nodup : (sents.map (·.txId)).Nodup
  admitted : ∀ sent ∈ sents, Admitted texts pool sent

theorem AdmittedOnce.send {texts : List String} {pool pool' : PrivateMempool}
    {sents : List SentTransaction} (h : AdmittedOnce texts pool sents) {store : StateStore}
    {txHex : String} {sent : SentTransaction}
    (hsend : Rpc.sendTransaction pool store txHex = .ok (pool', sent)) :
    AdmittedOnce (texts ++ [txHex]) pool' (sents ++ [sent]) := by
  obtain ⟨tx, trailing, hspelled, hinsert, rfl⟩ := sendTransaction_ok_iff.mp hsend
  obtain ⟨-, hnew, -, -, -, rfl⟩ := PrivateMempool.insert_ok_iff.mp hinsert
  constructor
  · rw [List.map_append, List.map_singleton, List.nodup_append]
    refine ⟨h.nodup, List.nodup_singleton _, ?_⟩
    rintro id hid other hother rfl
    obtain ⟨old, hold, hsame⟩ := List.mem_map.mp hid
    obtain ⟨_, _, oldTx, _, -, rfl, hpooled⟩ := h.admitted old hold
    have hids : oldTx.txId = tx.txId := hexId_inj (hsame.trans (List.mem_singleton.mp hother))
    rw [← hids, hpooled] at hnew
    cases hnew
  · intro other hother
    rcases List.mem_append.mp hother with hold | hlast
    · exact (h.admitted other hold).inserted hnew
    · obtain rfl := List.mem_singleton.mp hlast
      refine ⟨txHex, by simp, tx, trailing, hspelled, rfl, ?_⟩
      rw [PrivateMempool.get_inserted, if_pos rfl]

theorem admittedOnce_run (pool : PrivateMempool) (store : StateStore) (texts : List String) :
    AdmittedOnce texts (rpcMachine.final (pool, store) texts).1
      (rpcMachine.outputs (pool, store) texts) := by
  induction texts using List.reverseRecOn with
  | nil => exact ⟨List.nodup_nil, nofun⟩
  | append_singleton texts txHex ih =>
      rw [Machine.final_append, Machine.outputs_append]
      generalize rpcMachine.final (pool, store) texts = state at ih ⊢
      obtain ⟨pool', store'⟩ := state
      cases hsend : Rpc.sendTransaction pool' store' txHex with
      | error e =>
          simp only [Machine.final, Machine.outputs, rpcMachine, hsend, List.append_nil]
          exact ⟨ih.nodup, fun sent hsent => (ih.admitted sent hsent).mono⟩
      | ok result =>
          simp only [Machine.final, Machine.outputs, rpcMachine, hsend, List.append_nil]
          exact ih.send hsend

end

end NoirNet
