import NoirNet.Crypto.Encryption
import NoirNet.Proofs.Scanning

/-!
# Encrypted memos

`encrypt_memo` bounds the memo, `EncryptedMemo::new` what became of it, and both
by `MAX_MEMO_SIZE`.  A nonce and a tag lie between the two, 28 bytes.

* `decryptMemo_encryptMemo`: what was encrypted decrypts;
* `fits_iff`: the memos whose ciphertext the container takes.
-/

namespace NoirNet

/-! ## What a memo becomes -/

section

variable [ChaCha20Poly1305] {key : Bytes32} {nonce : Vector UInt8 12} {memo ciphertext : Bytes}

theorem encryptMemo_eq_some_iff :
    encryptMemo key nonce memo = some ciphertext ↔
      memo.length ≤ MAX_MEMO_SIZE ∧
        nonce.toList ++ ChaCha20Poly1305.encrypt key nonce memo = ciphertext := by
  rw [encryptMemo, ite_eq_iff]
  simp

theorem length_encryptMemo (htagged : ChaCha20Poly1305.Tagged)
    (h : encryptMemo key nonce memo = some ciphertext) :
    ciphertext.length = memo.length + 28 := by
  obtain ⟨-, rfl⟩ := encryptMemo_eq_some_iff.mp h
  rw [List.length_append, Vector.length_toList, htagged]
  omega

theorem decryptMemo_encryptMemo (hinverts : ChaCha20Poly1305.Inverts)
    (h : encryptMemo key nonce memo = some ciphertext) :
    decryptMemo key ciphertext = some memo := by
  obtain ⟨-, rfl⟩ := encryptMemo_eq_some_iff.mp h
  have hnonce : slice 12 (nonce.toList ++ ChaCha20Poly1305.encrypt key nonce memo) 0 = nonce :=
    slice_append [] _ nonce
  have hdrop : (nonce.toList ++ ChaCha20Poly1305.encrypt key nonce memo).drop 12 =
      ChaCha20Poly1305.encrypt key nonce memo := List.drop_left' Vector.length_toList
  rw [decryptMemo, if_neg (by simp), hnonce, hdrop]
  exact hinverts key nonce memo

end

theorem EncryptedMemo.new_eq_some_iff {data : Bytes} {m : EncryptedMemo} :
    EncryptedMemo.new data = some m ↔ data.length ≤ MAX_MEMO_SIZE ∧ data = m.bytes := by
  rw [EncryptedMemo.new, ite_eq_iff]
  cases m
  simp

/-! ## Which memos fit -/

section

variable [ChaCha20Poly1305]

/-- The memo encrypts, the container takes the ciphertext, and what it holds
decrypts to the memo. -/
def FitsContainer (key : Bytes32) (nonce : Vector UInt8 12) (memo : Bytes) : Prop :=
  ∃ ciphertext m, encryptMemo key nonce memo = some ciphertext ∧
    EncryptedMemo.new ciphertext = some m ∧ decryptMemo key m.bytes = some memo

/-- Of the memos that `encrypt_memo` accepts, the container takes those of at most 484
bytes. -/
theorem fits_iff (hinverts : ChaCha20Poly1305.Inverts) (htagged : ChaCha20Poly1305.Tagged)
    (key : Bytes32) (nonce : Vector UInt8 12) (memo : Bytes)
    (haccepted : memo.length ≤ MAX_MEMO_SIZE) :
    FitsContainer key nonce memo ↔ memo.length ≤ 484 := by
  obtain ⟨ciphertext, hciphertext⟩ :
      ∃ ciphertext, encryptMemo key nonce memo = some ciphertext :=
    ⟨_, encryptMemo_eq_some_iff.mpr ⟨haccepted, rfl⟩⟩
  have hlen := length_encryptMemo htagged hciphertext
  have hmax : ciphertext.length ≤ MAX_MEMO_SIZE ↔ memo.length ≤ 484 := by
    rw [hlen, MAX_MEMO_SIZE]
    omega
  rw [← hmax]
  constructor
  · intro hfits
    obtain ⟨ciphertext', m, henc, hnew, -⟩ := hfits
    have hsame : ciphertext' = ciphertext := Option.some.inj (henc.symm.trans hciphertext)
    rw [← hsame]
    exact (EncryptedMemo.new_eq_some_iff.mp hnew).1
  · intro hle
    refine ⟨ciphertext, ⟨ciphertext⟩, hciphertext, ?_, ?_⟩
    · exact EncryptedMemo.new_eq_some_iff.mpr ⟨hle, rfl⟩
    · exact decryptMemo_encryptMemo hinverts hciphertext

end

/-! ## A memo of 485 bytes -/

section

attribute [local instance] ChaCha20Poly1305.plain

theorem long_memo_refused :
    ¬ ∀ (key : Bytes32) (nonce : Vector UInt8 12) (memo : Bytes),
      memo.length ≤ MAX_MEMO_SIZE → FitsContainer key nonce memo := by
  intro h
  obtain ⟨ciphertext, m, henc, hnew, -⟩ :=
    h (fill 32 42) (fill 12 0) (List.replicate 485 0) (by rw [List.length_replicate]; decide)
  have hlen := length_encryptMemo tagged_plain henc
  have hle := (EncryptedMemo.new_eq_some_iff.mp hnew).1
  rw [hlen, List.length_replicate, MAX_MEMO_SIZE] at hle
  omega

theorem longest_memo_fits :
    ChaCha20Poly1305.Inverts ∧ ChaCha20Poly1305.Tagged ∧
      (List.replicate 484 (0 : UInt8)).length ≤ MAX_MEMO_SIZE ∧
      (FitsContainer (fill 32 42) (fill 12 0) (List.replicate 484 0) ↔
        (List.replicate 484 (0 : UInt8)).length ≤ 484) :=
  have haccepted : (List.replicate 484 (0 : UInt8)).length ≤ MAX_MEMO_SIZE := by
    rw [List.length_replicate]
    decide
  ⟨inverts_plain, tagged_plain, haccepted,
    fits_iff inverts_plain tagged_plain _ _ _ haccepted⟩

end

end NoirNet
