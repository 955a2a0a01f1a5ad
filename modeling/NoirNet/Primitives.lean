import Mathlib.Data.List.Basic

/-!
# Byte strings, and the cryptographic crates the node calls

`blake3`, `blst` and the crates for signatures, key agreement and encryption are
external.  They enter the model as classes, so every definition and theorem is
stated for all implementations; an assumption about one of them (collision
freeness, unforgeability) is a named hypothesis of the theorem that needs it.
-/

namespace NoirNet

abbrev Bytes := List UInt8

abbrev Bytes32 := Vector UInt8 32

abbrev Bytes48 := Vector UInt8 48

abbrev Bytes64 := Vector UInt8 64

abbrev Bytes96 := Vector UInt8 96

abbrev U128 := BitVec 128

/-- `Hash32([u8; 32])`, ordered as its byte array is. -/
abbrev Hash32 := Bytes32

instance Hash32.transOrd : Std.TransOrd Hash32 := inferInstance

def Hash32.ZERO : Hash32 := Vector.replicate 32 0

/-- The `blake3` crate: the digest of everything fed to one hasher. -/
class Blake3 where
  hash : Bytes → Bytes32

/-- The `blst` crate, through the wrappers of `noirnet_crypto::bls`. -/
class Bls where
  SecretKey : Type
  PublicKey : Type
  Signature : Type
  /-- `BlsPublicKey::from_bytes` -/
  publicKeyFromBytes : Bytes48 → Option PublicKey
  /-- `BlsSignature::from_bytes` -/
  signatureFromBytes : Bytes96 → Option Signature
  /-- `BlsSignature::to_bytes` -/
  signatureToBytes : Signature → Bytes96
  /-- `BlsSecretKey::sign` -/
  sign : SecretKey → Bytes → Signature
  /-- `BlsSignature::verify` -/
  verify : Signature → Bytes → PublicKey → Bool

/-- The `ed25519_dalek` crate; a signing key is its seed. -/
class Ed25519 where
  VerifyingKey : Type
  /-- `SigningKey::sign` -/
  sign : Bytes32 → Bytes → Bytes64
  /-- The bytes of `SigningKey::verifying_key` -/
  publicKey : Bytes32 → Bytes32
  /-- `VerifyingKey::from_bytes` -/
  verifyingKeyFromBytes : Bytes32 → Option VerifyingKey
  /-- `VerifyingKey::verify` -/
  verify : VerifyingKey → Bytes → Bytes64 → Bool

/-- The `x25519_dalek` crate; a secret is its bytes. -/
class X25519 where
  /-- `PublicKey::from` a secret -/
  publicKey : Bytes32 → Bytes32
  /-- `diffie_hellman` of a secret and a public key -/
  diffieHellman : Bytes32 → Bytes32 → Bytes32

/-- The `chacha20poly1305` crate: key, nonce, and plaintext or ciphertext. -/
class ChaCha20Poly1305 where
  encrypt : Bytes32 → Vector UInt8 12 → Bytes → Bytes
  decrypt : Bytes32 → Vector UInt8 12 → Bytes → Option Bytes

def blake3Of [Blake3] (data : Bytes) : Hash32 := Blake3.hash data

end NoirNet
