import NoirNet.Proofs.Delivery
import NoirNet.Wallet

/-!
# What the wallet's scanner finds

The scanner pads a prefix of the ciphertext to 580 bytes with zeros, the tag among
them.  A padded prefix that was not made by encryption does not decrypt.

* `Unsealed`: the padded prefix of an output is no ciphertext under the wallet's key;
* `scanOutput_eq_none`: no such output is found, whoever it is for;
* `received_iff`: what a wallet holds after a block.
-/

namespace NoirNet

structure SentNote where
  esk : Bytes32
  ovk : Bytes32
  note : Note
  leafIndex : UInt64

namespace SentNote

variable [Blake3] [X25519] [ChaCha20Poly1305]

def output (sent : SentNote) : EncryptedOutput :=
  encryptNote sent.esk sent.note sent.note.pkD sent.ovk

def compact (sent : SentNote) : CompactOutput where
  ephemeralKey := sent.output.ephemeralKey
  encCiphertextPrefix := slice 52 sent.output.encCiphertext 0
  noteCommitment := sent.note.commitment
  leafIndex := sent.leafIndex

end SentNote

namespace WalletSync

variable [Blake3] [X25519] [ChaCha20Poly1305]

def Holds (wallet : WalletSync) (sent : SentNote) : Prop :=
  ∃ held ∈ wallet.notes, held.note = sent.note ∧ held.leafIndex = sent.leafIndex

def total (sents : List SentNote) : UInt64 :=
  (sents.map (·.note.value)).foldl (· + ·) 0

/-- After the block the wallet holds the notes, and its balance is by their sum over
what it is after the block without them. -/
def Receives (wallet : WalletSync) (sents : List SentNote) (height : UInt64) (hash : Hash32)
    (nullifiers : List Hash32) : Prop :=
  let block : CompactBlock :=
    { height := height, hash := hash, compactOutputs := sents.map SentNote.compact,
      nullifiers := nullifiers }
  (∀ sent ∈ sents, (wallet.scanBlock block).Holds sent) ∧
    (wallet.scanBlock block).balance =
      (wallet.scanBlock { block with compactOutputs := [] }).balance + total sents

/-! ## No output is found -/

/-- The padded prefix was not made by encryption under the key the wallet tries. -/
def Unsealed (ivk : IncomingViewKey) (output : CompactOutput) : Prop :=
  ∀ plaintext, chacha20Encrypt
    (kdfNote (X25519.diffieHellman ivk.ivk output.ephemeralKey) output.ephemeralKey) 1 plaintext ≠
      fakeFullCipher output

theorem scanOutput_eq_none (hauthentic : ChaCha20Poly1305.Authentic) {ivk : IncomingViewKey}
    {output : CompactOutput} (hunsealed : Unsealed ivk output) :
    scanOutput ivk output = none := by
  rw [scanOutput, Option.map_eq_none_iff, Option.eq_none_iff_forall_ne_some]
  intro note hnote
  obtain ⟨plaintext, hdecrypt, -⟩ := tryDecryptOutput_eq_some_iff.mp hnote
  obtain ⟨made, hmade⟩ := hauthentic _ _ _ _ hdecrypt
  exact hunsealed made hmade

theorem scanBlock_eq (hauthentic : ChaCha20Poly1305.Authentic) (wallet : WalletSync)
    {block : CompactBlock}
    (hunsealed : ∀ output ∈ block.compactOutputs, Unsealed wallet.ivk output) :
    wallet.scanBlock block = wallet.scanBlock { block with compactOutputs := [] } := by
  have hnone : block.compactOutputs.filterMap (scanOutput wallet.ivk) = [] := by
    apply List.filterMap_eq_nil_iff.mpr
    intro output houtput
    exact scanOutput_eq_none hauthentic (hunsealed output houtput)
  rw [scanBlock, scanBlock, hnone]
  rfl

theorem holds_scanBlock_nil (wallet : WalletSync) {block : CompactBlock}
    (hnil : block.compactOutputs = []) (sent : SentNote) :
    (wallet.scanBlock block).Holds sent ↔ wallet.Holds sent := by
  have hmark (held : WalletNote) :
      (if held.nullifier ∈ block.nullifiers then { held with isSpent := true }
        else held).note = held.note ∧
      (if held.nullifier ∈ block.nullifiers then { held with isSpent := true }
        else held).leafIndex = held.leafIndex := by
    split
    · exact ⟨rfl, rfl⟩
    · exact ⟨rfl, rfl⟩
  rw [Holds, Holds, scanBlock, hnil, List.filterMap_nil, List.append_nil]
  simp only [List.mem_map, exists_exists_and_eq_and, hmark]

/-- After any compact block of outputs that `encrypt_note` made, whoever they are
for, a wallet has received their notes exactly when it held them all before and
their values add up to zero. -/
theorem received_iff (hauthentic : ChaCha20Poly1305.Authentic) (wallet : WalletSync)
    (sents : List SentNote) (height : UInt64) (hash : Hash32) (nullifiers : List Hash32)
    (hunsealed : ∀ sent ∈ sents, Unsealed wallet.ivk sent.compact) :
    wallet.Receives sents height hash nullifiers ↔
      (∀ sent ∈ sents, wallet.Holds sent) ∧ total sents = 0 := by
  rw [Receives]
  dsimp only
  rw [scanBlock_eq hauthentic wallet (List.forall_mem_map.mpr hunsealed)]
  simp only [holds_scanBlock_nil]
  apply and_congr_right
  intro _
  rw [eq_comm, UInt64.add_eq_left]

end WalletSync

/-! ## A fresh wallet and one note -/

section

attribute [local instance] Blake3.sum X25519.plain ChaCha20Poly1305.plain

def sentNote : SentNote where
  esk := fill 32 6
  ovk := fill 32 2
  note :=
    { value := 5, rcm := fill 32 3, rho := fill 32 4, pkD := derivePkdFromIvk (fill 32 1)
      diversifier := fill 11 0 }
  leafIndex := 0

theorem unsealed_plain (ivk : IncomingViewKey) (output : CompactOutput) :
    WalletSync.Unsealed ivk output := by
  intro plaintext h
  set key := kdfNote (X25519.diffieHellman ivk.ivk output.ephemeralKey) output.ephemeralKey
  have hmade : plaintext ++ (key.toList.take 4 ++ (nonceOf 1).toList) =
      output.encCiphertextPrefix.toList ++ List.replicate (580 - 52) 0 := h
  have hlen := congrArg List.length hmade
  simp only [List.length_append, List.length_take, List.length_replicate,
    Vector.length_toList] at hlen
  have hfront : (plaintext ++ key.toList.take 4).length = 568 := by
    rw [List.length_append, List.length_take, Vector.length_toList]
    omega
  have hnonce : (nonceOf 1).toList = List.replicate 12 0 := by
    have hend := congrArg (List.drop 568) hmade
    rw [← List.append_assoc, ← hfront, List.drop_left, hfront, List.drop_append,
      List.drop_eq_nil_of_le (by simp), List.nil_append, List.drop_replicate,
      Vector.length_toList] at hend
    exact hend
  exact absurd hnonce (by decide)

theorem received_note_missed :
    ChaCha20Poly1305.Inverts ∧ ChaCha20Poly1305.Authentic ∧
      ¬ ∀ (wallet : WalletSync) (sents : List SentNote) (height : UInt64) (hash : Hash32)
          (nullifiers : List Hash32),
        (∀ sent ∈ sents, sent.note.pkD = derivePkdFromIvk wallet.ivk.ivk) →
          wallet.Receives sents height hash nullifiers := by
  refine ⟨inverts_plain, authentic_plain, ?_⟩
  intro h
  have hreceived := h { ivk := ⟨fill 32 1⟩ } [sentNote] 0 (fill 32 0) [] (by
    simp [sentNote])
  obtain ⟨held, hheld, -⟩ := hreceived.1 sentNote (List.mem_singleton_self _)
  rw [WalletSync.scanBlock_eq authentic_plain _ fun _ _ => unsealed_plain _ _] at hheld
  simp [WalletSync.scanBlock] at hheld

theorem sent_note_received_iff :
    ChaCha20Poly1305.Authentic ∧
      (∀ sent ∈ [sentNote], WalletSync.Unsealed ⟨fill 32 1⟩ sent.compact) ∧
      (WalletSync.Receives { ivk := ⟨fill 32 1⟩ } [sentNote] 0 (fill 32 0) [] ↔
        (∀ sent ∈ [sentNote], WalletSync.Holds { ivk := ⟨fill 32 1⟩ } sent) ∧
          WalletSync.total [sentNote] = 0) :=
  ⟨authentic_plain, fun _ _ => unsealed_plain _ _,
    WalletSync.received_iff authentic_plain _ _ _ _ _ fun _ _ => unsealed_plain _ _⟩

end

end NoirNet
