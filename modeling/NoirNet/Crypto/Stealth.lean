import NoirNet.Lib.Wire
import NoirNet.Types

/-!
# Notes, addresses and their encryption

`noirnet_types::note`, the address derivation of `noirnet_types::address`, and
`noirnet_crypto::stealth`.  The ephemeral secret that `encrypt_note` draws is an
argument.
-/

namespace NoirNet

open Lib.Wire

/-- `data[start..start + n]` as an array; `data` is long enough. -/
def slice (n : Nat) (data : Bytes) (start : Nat) : Vector UInt8 n :=
  Vector.ofFn fun i => data.getD (start + i) 0

/-! ## Notes -/

namespace Note

def commitment [Blake3] (note : Note) : Hash32 :=
  Blake3.hash ("NoirNet_note_cm_v1".toUTF8.toList ++ putU64 note.value ++ note.rcm.toList ++
    note.rho.toList ++ note.pkD.toList ++ note.diversifier.toList)

def toPlaintext (note : Note) : Bytes :=
  note.diversifier.toList ++ (putU64 note.value ++ (note.rcm.toList ++ note.rho.toList))

def fromPlaintext (data : Bytes) (pkD : Bytes32) : Option Note :=
  if data.length < 83 then none
  else some {
    value := UInt64.ofNat (leValue (slice 8 data 11).toList)
    rcm := slice 32 data 19
    rho := slice 32 data 51
    pkD := pkD
    diversifier := slice 11 data 0 }

end Note

def IncomingViewKey.paymentAddress [Blake3] (ivk : IncomingViewKey) (diversifierIndex : UInt64) :
    PaymentAddress :=
  let div : Vector UInt8 11 := Vector.ofFn fun i => (putU64 diversifierIndex).getD i 0
  { diversifier := div
    pkD := Blake3.hash ("NoirNet_pkd_v1".toUTF8.toList ++ ivk.ivk.toList ++ div.toList) }

/-! ## Encryption -/

structure EncryptedOutput where
  ephemeralKey : Bytes32
  encCiphertext : Bytes
  outCiphertext : Bytes
  deriving DecidableEq

def kdfNote [Blake3] (sharedSecret epk : Bytes32) : Bytes32 :=
  Blake3.hash ("NoirNet_KDF_note_v1".toUTF8.toList ++ sharedSecret.toList ++ epk.toList)

def kdfOutgoing [Blake3] (ovk epk : Bytes32) : Bytes32 :=
  Blake3.hash ("NoirNet_KDF_out_v1".toUTF8.toList ++ ovk.toList ++ epk.toList)

def nonceOf (nonceByte : UInt8) : Vector UInt8 12 :=
  Vector.ofFn fun i => if i.val = 0 then nonceByte else 0

def chacha20Encrypt [ChaCha20Poly1305] (key : Bytes32) (nonceByte : UInt8) (plaintext : Bytes) :
    Bytes :=
  ChaCha20Poly1305.encrypt key (nonceOf nonceByte) plaintext

def chacha20Decrypt [ChaCha20Poly1305] (key : Bytes32) (nonceByte : UInt8) (ciphertext : Bytes) :
    Option Bytes :=
  ChaCha20Poly1305.decrypt key (nonceOf nonceByte) ciphertext

def derivePkdFromIvk [X25519] (ivk : Bytes32) : Bytes32 := X25519.publicKey ivk

section

variable [Blake3] [X25519] [ChaCha20Poly1305]

def encryptNote (esk : Bytes32) (note : Note) (recipientPkD senderOvk : Bytes32) :
    EncryptedOutput :=
  let epk := X25519.publicKey esk
  let encKey := kdfNote (X25519.diffieHellman esk recipientPkD) epk
  let outKey := kdfOutgoing senderOvk epk
  { ephemeralKey := epk
    encCiphertext := chacha20Encrypt encKey 1 note.toPlaintext
    outCiphertext := chacha20Encrypt outKey 2 (recipientPkD.toList ++ note.rcm.toList) }

def tryDecryptOutput (encCiphertext : Bytes) (ephemeralKey : Bytes32) (noteCommitment : Hash32)
    (ivk : IncomingViewKey) : Option Note := do
  let pkD := derivePkdFromIvk ivk.ivk
  let encKey := kdfNote (X25519.diffieHellman ivk.ivk ephemeralKey) ephemeralKey
  let plaintext ← chacha20Decrypt encKey 1 encCiphertext
  let note ← Note.fromPlaintext plaintext pkD
  if note.commitment ≠ noteCommitment then
    none
  return note

end

/-! ## What is assumed of the crates -/

def X25519.Commutative [X25519] : Prop :=
  ∀ a b : Bytes32, diffieHellman a (publicKey b) = diffieHellman b (publicKey a)

section

variable [ChaCha20Poly1305]

def ChaCha20Poly1305.Inverts : Prop :=
  ∀ (key : Bytes32) (nonce : Vector UInt8 12) (plaintext : Bytes),
    decrypt key nonce (encrypt key nonce plaintext) = some plaintext

/-- What decrypts under a key and a nonce was encrypted under them. -/
def ChaCha20Poly1305.Authentic : Prop :=
  ∀ (key : Bytes32) (nonce : Vector UInt8 12) (ciphertext plaintext : Bytes),
    decrypt key nonce ciphertext = some plaintext →
      ∃ made, encrypt key nonce made = ciphertext

/-- A ciphertext is its plaintext and a tag of 16 bytes. -/
def ChaCha20Poly1305.Tagged : Prop :=
  ∀ (key : Bytes32) (nonce : Vector UInt8 12) (plaintext : Bytes),
    (encrypt key nonce plaintext).length = plaintext.length + 16

def ChaCha20Poly1305.Correct : Prop :=
  ∀ (key : Bytes32) (note : Note),
    chacha20Decrypt key 1 (chacha20Encrypt key 1 note.toPlaintext) = some note.toPlaintext

theorem ChaCha20Poly1305.Inverts.correct (h : ChaCha20Poly1305.Inverts) :
    ChaCha20Poly1305.Correct :=
  fun key note => h key (nonceOf 1) note.toPlaintext

end

end NoirNet
