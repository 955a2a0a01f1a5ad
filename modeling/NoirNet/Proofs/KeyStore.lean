import NoirNet.KeyStore
import NoirNet.Proofs.Memo

/-!
# The seed in the key store

`new` copies the encrypted seed into a buffer of 64 bytes, and `copy_from_slice`
panics unless source and buffer have one length.  A seed and its tag have 48.

* `new_eq_ok_iff`: when a key store is made, and which;
* `new_panics`: with a tag of 16 bytes it never is;
* `not_roundTrips`: so no seed comes back.
-/

namespace NoirNet.SoftwareKeyStore

section

variable [Argon2] [ChaCha20Poly1305] {seed salt : Bytes32} {password : String}

def derivedKey (password : String) (salt : Bytes32) : Option Bytes32 :=
  Argon2.hashPasswordInto params password.toUTF8.toList salt.toList

/-- The key store is made, gives the seed back for its password, and fails to decrypt
for every password that gives another key. -/
def RoundTrips (seed : Bytes32) (password : String) (salt : Bytes32) : Prop :=
  ∃ store, new seed password salt = .ok store ∧ store.deriveSpendKey password = .ok (.ok seed) ∧
    ∀ other, derivedKey other salt ≠ derivedKey password salt →
      store.deriveSpendKey other = .ok (.error .decryptionFailed)

/-! ## When a key store is made -/

theorem new_of_derivedKey {key : Bytes32} (hkey : derivedKey password salt = some key) :
    new seed password salt =
      (copyFromSlice 64 (ChaCha20Poly1305.encrypt key nonce seed.toList)).map fun encryptedSeed =>
        { encryptedSeed := encryptedSeed, salt := salt, iterations := 3, kdf := params } := by
  rw [derivedKey] at hkey
  rw [new, hkey]
  dsimp only
  cases copyFromSlice 64 (ChaCha20Poly1305.encrypt key nonce seed.toList) with
  | error panic => rfl
  | ok encryptedSeed => rfl

theorem new_of_no_key (hkey : derivedKey password salt = none) :
    new seed password salt = .error .kdfFailed := by
  rw [derivedKey] at hkey
  rw [new, hkey]

theorem new_eq_ok_iff {store : SoftwareKeyStore} :
    new seed password salt = .ok store ↔
      ∃ key, derivedKey password salt = some key ∧
        (ChaCha20Poly1305.encrypt key nonce seed.toList).length = 64 ∧
        store =
          { encryptedSeed := slice 64 (ChaCha20Poly1305.encrypt key nonce seed.toList) 0
            salt := salt, iterations := 3, kdf := params } := by
  cases hkey : derivedKey password salt with
  | none => simp [new_of_no_key hkey]
  | some key =>
      rw [new_of_derivedKey hkey, copyFromSlice]
      by_cases hlen : (ChaCha20Poly1305.encrypt key nonce seed.toList).length = 64
      · simp [hlen, Except.map, eq_comm]
      · simp [hlen, Except.map]

theorem new_panics (htagged : ChaCha20Poly1305.Tagged) (seed : Bytes32) (password : String)
    (salt : Bytes32) :
    new seed password salt = .error .kdfFailed ∨
      new seed password salt = .error (.lengthMismatch 48 64) := by
  cases hkey : derivedKey password salt with
  | none => exact Or.inl (new_of_no_key hkey)
  | some key =>
      have hlen : (ChaCha20Poly1305.encrypt key nonce seed.toList).length = 48 := by
        rw [htagged, Vector.length_toList]
      right
      rw [new_of_derivedKey hkey, copyFromSlice, hlen]
      rfl

/-! ## What comes back -/

/-- With a tag of 16 bytes no seed, password and salt round-trip: `new` panics. -/
theorem not_roundTrips (htagged : ChaCha20Poly1305.Tagged) (seed : Bytes32) (password : String)
    (salt : Bytes32) : ¬ RoundTrips seed password salt := by
  intro h
  obtain ⟨store, hnew, -, -⟩ := h
  cases new_panics htagged seed password salt with
  | inl hkdf =>
      rw [hkdf] at hnew
      cases hnew
  | inr hcopy =>
      rw [hcopy] at hnew
      cases hnew

end

/-! ## One password -/

section

@[reducible] def plainArgon2 : Argon2 where
  hashPasswordInto _ password _ := some (slice 32 password 0)

attribute [local instance] plainArgon2 ChaCha20Poly1305.plain

theorem new_store_panics :
    ¬ ∀ (seed : Bytes32) (password : String) (salt : Bytes32), RoundTrips seed password salt := by
  intro h
  obtain ⟨store, hnew, -, -⟩ := h (fill 32 7) "secure_password_123" (fill 32 1)
  obtain ⟨key, -, hlen, -⟩ := new_eq_ok_iff.mp hnew
  rw [tagged_plain, Vector.length_toList] at hlen
  omega

theorem seven_not_recovered :
    ChaCha20Poly1305.Tagged ∧ ¬ RoundTrips (fill 32 7) "secure_password_123" (fill 32 1) :=
  ⟨tagged_plain, not_roundTrips tagged_plain _ _ _⟩

end

end NoirNet.SoftwareKeyStore
