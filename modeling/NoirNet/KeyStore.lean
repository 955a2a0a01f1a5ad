import NoirNet.Crypto.Stealth

/-!
# The software key store

`SoftwareKeyStore` of `noirnet_wallet::keys`.  The salt that `new` draws is an
argument; the outer `Except` of a result is the panics.
-/

namespace NoirNet

structure Argon2Params where
  mCost : UInt32
  tCost : UInt32
  pCost : UInt32
  outputLen : Option Nat
  deriving DecidableEq

/-- The `argon2` crate, Argon2id in version 0x13. -/
class Argon2 where
  /-- `hash_password_into` a buffer of 32 bytes: parameters, password and salt -/
  hashPasswordInto : Argon2Params → Bytes → Bytes → Option Bytes32

inductive KeyStoreError where
  | decryptionFailed
  | hsmError
  | kdfError
  | mpcError
  deriving DecidableEq

inductive KeyStorePanic where
  /-- `expect("KDF failed")` -/
  | kdfFailed
  /-- `copy_from_slice` of a source into a destination of another length -/
  | lengthMismatch (source destination : Nat)
  /-- `[..end]` of a shorter slice -/
  | sliceEnd (stop len : Nat)
  deriving DecidableEq

/-- `copy_from_slice` into a buffer of `n` bytes. -/
def copyFromSlice (n : Nat) (source : Bytes) : Except KeyStorePanic (Vector UInt8 n) :=
  if source.length = n then .ok (slice n source 0) else .error (.lengthMismatch source.length n)

structure SoftwareKeyStore where
  encryptedSeed : Bytes64
  salt : Bytes32
  iterations : UInt32
  kdf : Argon2Params
  deriving DecidableEq

namespace SoftwareKeyStore

/-- `argon2::Params::new(65536, 3, 1, Some(32))`. -/
def params : Argon2Params where
  mCost := 65536
  tCost := 3
  pCost := 1
  outputLen := some 32

def nonce : Vector UInt8 12 := Vector.replicate 12 0

variable [Argon2] [ChaCha20Poly1305]

def new (seed : Bytes32) (password : String) (salt : Bytes32) :
    Except KeyStorePanic SoftwareKeyStore :=
  match Argon2.hashPasswordInto params password.toUTF8.toList salt.toList with
  | none => .error .kdfFailed
  | some key => do
      let encryptedSeed ← copyFromSlice 64 (ChaCha20Poly1305.encrypt key nonce seed.toList)
      return { encryptedSeed := encryptedSeed, salt := salt, iterations := 3, kdf := params }

def deriveSpendKey (store : SoftwareKeyStore) (password : String) :
    Except KeyStorePanic (Except KeyStoreError Bytes32) :=
  match Argon2.hashPasswordInto store.kdf password.toUTF8.toList store.salt.toList with
  | none => .ok (.error .decryptionFailed)
  | some key =>
      match ChaCha20Poly1305.decrypt key nonce store.encryptedSeed.toList with
      | none => .ok (.error .decryptionFailed)
      | some seed =>
          if seed.length < 32 then .error (.sliceEnd 32 seed.length)
          else .ok (.ok (slice 32 seed 0))

end SoftwareKeyStore

end NoirNet
