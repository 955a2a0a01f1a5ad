import Mathlib.Data.List.Dedup
import Mathlib.Data.Set.Function
import NoirNet.Ledger
import NoirNet.Lib.Delimited

/-!
# What the identifiers determine

A block hash is the digest of the header alone, a transaction id the digest of
the whole transaction, and a transaction root the digest of the ids.  Where the
digest does not collide, each determines what it was computed from.
-/

namespace NoirNet

open Lib.Wire

/-! ## Serialised records -/

theorem SpendDescription.delimited_serialize : Delimited serialize := by
  intro a b s t _ _ h
  simp only [serialize, List.append_assoc, array_append_eq_iff] at h
  cases a
  cases b
  simp_all

theorem OutputDescription.delimited_serialize : Delimited serialize := by
  intro a b s t ha hb h
  simp only [serialize, List.length_append] at ha hb
  simp only [serialize, List.append_assoc, array_append_eq_iff] at h
  obtain ⟨hcommitment, hkey, h⟩ := h
  obtain ⟨henc, h⟩ := delimited_putBytes _ _ _ _ (by omega) (by omega) h
  obtain ⟨hout, h⟩ := delimited_putBytes _ _ _ _ (by omega) (by omega) h
  obtain ⟨hcv, hrest⟩ := array_append_eq_iff.mp h
  cases a
  cases b
  simp_all

theorem EncryptedMemo.delimited_serialize : Delimited serialize := by
  intro a b s t ha hb h
  obtain ⟨hbytes, hrest⟩ := delimited_putBytes _ _ _ _ ha hb h
  cases a
  cases b
  exact ⟨congrArg mk hbytes, hrest⟩

theorem ContractCall.delimited_serialize : Delimited serialize := by
  intro a b s t ha hb h
  simp only [serialize, List.length_append] at ha hb
  simp only [serialize, List.append_assoc, array_append_eq_iff] at h
  obtain ⟨hid, h⟩ := h
  obtain ⟨hmethod, h⟩ := delimited_putString _ _ _ _ (by omega) (by omega) h
  obtain ⟨hargs, h⟩ := delimited_putBytes _ _ _ _ (by omega) (by omega) h
  obtain ⟨hgas, h⟩ := putU64_append_eq_iff.mp h
  obtain ⟨hcaller, hrest⟩ := array_append_eq_iff.mp h
  cases a
  cases b
  simp_all

theorem Transaction.delimited_serialize : Delimited serialize := by
  intro a b s t ha hb h
  simp only [serialize, List.length_append] at ha hb
  simp only [serialize, List.append_assoc, List.cons_append, List.nil_append, List.cons.injEq,
    putU32_append_eq_iff] at h
  obtain ⟨hversion, hchain, h⟩ := h
  obtain ⟨hspends, h⟩ := delimited_putVec SpendDescription.delimited_serialize
    (by simp [SpendDescription.serialize]) _ _ _ _ (by omega) (by omega) h
  obtain ⟨houtputs, h⟩ := delimited_putVec OutputDescription.delimited_serialize
    (by simp [OutputDescription.serialize]; omega) _ _ _ _ (by omega) (by omega) h
  obtain ⟨hfee, h⟩ := putU64_append_eq_iff.mp h
  obtain ⟨hgas, h⟩ := putU64_append_eq_iff.mp h
  obtain ⟨hmemo, h⟩ := delimited_putOption EncryptedMemo.delimited_serialize _ _ _ _ (by omega)
    (by omega) h
  obtain ⟨hcall, h⟩ := delimited_putOption ContractCall.delimited_serialize _ _ _ _ (by omega)
    (by omega) h
  obtain ⟨hdeploy, h⟩ := delimited_putOption delimited_putBytes _ _ _ _ (by omega) (by omega) h
  obtain ⟨hsig, h⟩ := array_append_eq_iff.mp h
  obtain ⟨htime, h⟩ := putU64_append_eq_iff.mp h
  obtain ⟨hproof, hrest⟩ := delimited_putBytes _ _ _ _ (by omega) (by omega) h
  cases a
  cases b
  simp_all

theorem BlockHeader.serialize_injective : Function.Injective serialize := by
  intro a b h
  have h' : a.serialize ++ [] = b.serialize ++ [] := by rw [h]
  simp only [serialize, List.append_assoc, array_append_eq_iff, putU64_append_eq_iff,
    putU32_append_eq_iff] at h'
  cases a
  cases b
  simp_all

theorem Transaction.length_of_validateFormat {tx : Transaction}
    (hformat : tx.validateFormat = .ok ()) : tx.serialize.length < lengthBound := by
  obtain ⟨-, -, -, -, -, -, -, -, -, hsize⟩ := validateFormat_ok_iff.mp hformat
  calc
    tx.serialize.length ≤ MAX_P2P_MESSAGE_SIZE := hsize
    _ < lengthBound := by decide

/-! ## Digests -/

def Blake3.CollisionFree [Blake3] (inputs : Set Bytes) : Prop := Set.InjOn Blake3.hash inputs

variable [Blake3] {inputs : Set Bytes}

theorem Blake3.collisionFree_of_nodup {data : List Bytes}
    (h : (data.dedup.map Blake3.hash).Nodup) : CollisionFree {bytes | bytes ∈ data} := by
  intro a ha b hb
  exact List.inj_on_of_nodup_map h (List.mem_dedup.mpr ha) (List.mem_dedup.mpr hb)

theorem Transaction.eq_of_txId_eq (hfree : Blake3.CollisionFree inputs) {a b : Transaction}
    (ha : a.serialize ∈ inputs) (hb : b.serialize ∈ inputs) (hformat : a.validateFormat = .ok ())
    (h : a.txId = b.txId) : a = b :=
  delimited_serialize.eq_of_eq (length_of_validateFormat hformat) (hfree ha hb h)

theorem Transaction.ids_eq_of_flatMap_eq {txs txs' : List Transaction}
    (h : (txs.flatMap fun tx => tx.txId.toList) = txs'.flatMap fun tx => tx.txId.toList) :
    txs.map txId = txs'.map txId := by
  have hlen (tx : Transaction) : tx.txId.toList.length = 32 := tx.txId.length_toList
  induction txs generalizing txs' with
  | nil =>
      cases txs' with
      | nil => rfl
      | cons tx' txs' => simp [Vector.toList_eq_nil_iff] at h
  | cons tx txs ih =>
      cases txs' with
      | nil => simp at h
      | cons tx' txs' =>
          rw [List.flatMap_cons, List.flatMap_cons] at h
          obtain ⟨hid, hids⟩ := List.append_inj h (by rw [hlen, hlen])
          rw [List.map_cons, List.map_cons, ih hids, Vector.toList_inj.mp hid]

/-- Everything that is hashed to identify a block, its transactions and its body. -/
def Block.hashed (block : Block) : List Bytes :=
  block.header.serialize :: (block.transactions.flatMap fun tx => tx.txId.toList) ::
    block.transactions.map Transaction.serialize

/-- A transaction root other than zero determines the body. -/
theorem Block.transactions_eq_of_computeTxRoot_eq {a b : Block}
    (hfree : Blake3.CollisionFree {bytes | bytes ∈ a.hashed ++ b.hashed})
    (hformat : ∀ tx ∈ a.transactions, tx.validateFormat = .ok ())
    (hzero : computeTxRoot a.transactions ≠ Hash32.ZERO)
    (h : computeTxRoot a.transactions = computeTxRoot b.transactions) :
    a.transactions = b.transactions := by
  have hbody {txs : List Transaction} (hne : computeTxRoot txs ≠ Hash32.ZERO) :
      computeTxRoot txs = Blake3.hash (txs.flatMap fun tx => tx.txId.toList) := by
    rw [computeTxRoot, if_neg]
    intro hempty
    exact hne (if_pos hempty)
  have hids : a.transactions.map Transaction.txId = b.transactions.map Transaction.txId := by
    have hzero' : computeTxRoot b.transactions ≠ Hash32.ZERO := h ▸ hzero
    apply Transaction.ids_eq_of_flatMap_eq
    rw [hbody hzero, hbody hzero'] at h
    exact hfree (by simp [hashed]) (by simp [hashed]) h
  have hlen : a.transactions.length = b.transactions.length := by
    simpa using congrArg List.length hids
  apply List.ext_getElem hlen
  intro i ha hb
  have hid : (a.transactions.map Transaction.txId)[i]? =
      (b.transactions.map Transaction.txId)[i]? := by rw [hids]
  have hmemA := List.getElem_mem ha
  have hmemB := List.getElem_mem hb
  apply Transaction.eq_of_txId_eq hfree _ _ (hformat _ hmemA)
  · simpa [ha, hb] using hid
  · exact List.mem_append_left _ (by simp [hashed, List.mem_map_of_mem hmemA])
  · exact List.mem_append_right _ (by simp [hashed, List.mem_map_of_mem hmemB])

theorem BlockHeader.eq_of_hash_eq (hfree : Blake3.CollisionFree inputs) {a b : BlockHeader}
    (ha : a.serialize ∈ inputs) (hb : b.serialize ∈ inputs) (h : a.hash = b.hash) : a = b :=
  serialize_injective (hfree ha hb h)

end NoirNet
