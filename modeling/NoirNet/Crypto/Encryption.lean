import NoirNet.Crypto.Stealth

/-!
# Memos

`encrypt_memo` and `decrypt_memo` of `noirnet_crypto::encryption`, and
`EncryptedMemo` of `noirnet_types::note`.  The nonce that `encrypt_memo` draws is
an argument.
-/

namespace NoirNet

section

variable [ChaCha20Poly1305]

def encryptMemo (key : Bytes32) (nonce : Vector UInt8 12) (memo : Bytes) : Option Bytes :=
  if memo.length > MAX_MEMO_SIZE then none
  else some (nonce.toList ++ ChaCha20Poly1305.encrypt key nonce memo)

def decryptMemo (key : Bytes32) (ciphertext : Bytes) : Option Bytes :=
  if ciphertext.length < 12 then none
  else ChaCha20Poly1305.decrypt key (slice 12 ciphertext 0) (ciphertext.drop 12)

end

def EncryptedMemo.new (data : Bytes) : Option EncryptedMemo :=
  if data.length > MAX_MEMO_SIZE then none else some ⟨data⟩

end NoirNet
