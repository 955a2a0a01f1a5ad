import Mathlib.Data.List.GetD
import NoirNet.Concrete
import NoirNet.Crypto.Stealth
import NoirNet.Lib.Delimited

/-!
# Notes sent to an address

The sender agrees on a key with the `pk_d` of the address, the receiver with the
public key of its viewing key, and the note it opens bears the latter.

* `fromPlaintext_toPlaintext`, `pkD_of_fromPlaintext`: what a plaintext holds;
* `tryDecryptOutput_encryptNote_iff`: who can open an output;
* `stealth_round_trip`: what a viewing key opens;
* `delivered_iff`: the notes sent to an address of the wallet.
-/

namespace NoirNet

open Lib.Wire

/-! ## Plaintexts -/

theorem toList_slice {n start : Nat} {data : Bytes} (hlen : start + n ≤ data.length) :
    (slice n data start).toList = (data.drop start).take n := by
  apply List.ext_getElem
  · simp
    omega
  · intro i hi hi'
    have hdata : start + i < data.length := by
      simp at hi
      omega
    simp [slice, hdata]

theorem toList_slice_append {n : Nat} (before after : Bytes) {field : Bytes}
    (hlen : field.length = n) :
    (slice n (before ++ (field ++ after)) before.length).toList = field := by
  rw [toList_slice (by simp [hlen]), List.drop_left, ← hlen, List.take_left]

theorem slice_append {n : Nat} (before after : Bytes) (field : Vector UInt8 n) :
    slice n (before ++ (field.toList ++ after)) before.length = field := by
  apply Vector.toList_inj.mp
  exact toList_slice_append before after Vector.length_toList

theorem leValue_putU64 (v : UInt64) : leValue (putU64 v) = v.toNat := by
  apply leBytes_inj (w := 8)
  · calc
      leValue (putU64 v) < 256 ^ (putU64 v).length := leValue_lt _
      _ = 256 ^ 8 := by rw [length_putU64]
  · exact v.toNat_lt
  · calc
      leBytes 8 (leValue (putU64 v)) = leBytes (putU64 v).length (leValue (putU64 v)) := by
        rw [length_putU64]
      _ = putU64 v := leBytes_leValue _

theorem ofNat_leValue_putU64 (v : UInt64) : UInt64.ofNat (leValue (putU64 v)) = v := by
  rw [leValue_putU64, UInt64.ofNat_toNat]

theorem putU64_ofNat_leValue {bytes : Bytes} (hlen : bytes.length = 8) :
    putU64 (UInt64.ofNat (leValue bytes)) = bytes := by
  have hlt : leValue bytes < UInt64.size := by
    calc
      leValue bytes < 256 ^ bytes.length := leValue_lt _
      _ = UInt64.size := by rw [hlen]; rfl
  rw [putU64, UInt64.toNat_ofNat_of_lt' hlt, ← hlen, leBytes_leValue]

namespace Note

theorem length_toPlaintext (note : Note) : note.toPlaintext.length = 83 := by
  simp [toPlaintext]

theorem fromPlaintext_toPlaintext (note : Note) (pkD : Bytes32) :
    fromPlaintext note.toPlaintext pkD = some { note with pkD := pkD } := by
  have hdiversifier : slice 11 note.toPlaintext 0 = note.diversifier :=
    slice_append [] _ note.diversifier
  have hvalue : (slice 8 note.toPlaintext 11).toList = putU64 note.value := by
    have h := toList_slice_append note.diversifier.toList (note.rcm.toList ++ note.rho.toList)
      (length_putU64 note.value)
    rwa [Vector.length_toList] at h
  have hrcm : slice 32 note.toPlaintext 19 = note.rcm := by
    have h := slice_append (note.diversifier.toList ++ putU64 note.value) note.rho.toList note.rcm
    rwa [List.length_append, Vector.length_toList, length_putU64, List.append_assoc] at h
  have hrho : slice 32 note.toPlaintext 51 = note.rho := by
    have h := slice_append (note.diversifier.toList ++ putU64 note.value ++ note.rcm.toList) []
      note.rho
    simpa [toPlaintext] using h
  rw [fromPlaintext, if_neg (by rw [length_toPlaintext]; decide), hdiversifier, hvalue, hrcm, hrho,
    ofNat_leValue_putU64]

theorem toPlaintext_of_fromPlaintext {data : Bytes} {pkD : Bytes32} {note : Note}
    (h : fromPlaintext data pkD = some note) : note.toPlaintext = data.take 83 := by
  unfold fromPlaintext at h
  by_cases hlen : data.length < 83
  · simp [hlen] at h
  · rw [if_neg hlen] at h
    obtain rfl := Option.some.inj h
    rw [toPlaintext, putU64_ofNat_leValue Vector.length_toList, toList_slice (by omega),
      toList_slice (by omega), toList_slice (by omega), toList_slice (by omega), List.drop_zero]
    have hsplit (m n : Nat) : (data.drop m).take n ++ (data.drop (m + n)).take (83 - (m + n)) =
        (data.drop m).take (n + (83 - (m + n))) := by
      rw [List.take_add, List.drop_drop]
    calc
      _ = data.take 11 ++ ((data.drop 11).take 8 ++ (data.drop 19).take 64) := by
        rw [hsplit 19 32]
      _ = data.take 11 ++ (data.drop 11).take 72 := by rw [hsplit 11 8]
      _ = data.take 83 := by simpa using hsplit 0 11

theorem pkD_of_fromPlaintext {data : Bytes} {pkD : Bytes32} {note : Note}
    (h : fromPlaintext data pkD = some note) : note.pkD = pkD := by
  unfold fromPlaintext at h
  by_cases hlen : data.length < 83
  · simp [hlen] at h
  · rw [if_neg hlen] at h
    exact (congrArg Note.pkD (Option.some.inj h)).symm

end Note

/-! ## Opening an output -/

section

variable [Blake3] [X25519] [ChaCha20Poly1305]

/-- What `try_decrypt_output` opens bears the public key of the viewing key. -/
theorem tryDecryptOutput_eq_some_iff {ciphertext : Bytes} {epk : Bytes32} {cm : Hash32}
    {ivk : IncomingViewKey} {note : Note} :
    tryDecryptOutput ciphertext epk cm ivk = some note ↔
      ∃ plaintext,
        chacha20Decrypt (kdfNote (X25519.diffieHellman ivk.ivk epk) epk) 1 ciphertext =
            some plaintext ∧
          Note.fromPlaintext plaintext (derivePkdFromIvk ivk.ivk) = some note ∧
          note.commitment = cm := by
  unfold tryDecryptOutput
  simp only [Option.bind_eq_bind, Option.bind_eq_some_iff, Option.pure_def]
  apply exists_congr
  intro plaintext
  apply and_congr_right
  intro _
  constructor
  · rintro ⟨opened, hopened, h⟩
    by_cases hcm : opened.commitment = cm
    · simp only [hcm, ne_eq, not_true_eq_false, ↓reduceIte,
        Option.some.injEq] at h
      exact h ▸ ⟨hopened, hcm⟩
    · simp [hcm] at h
  · rintro ⟨hopened, hcm⟩
    exact ⟨note, hopened, by simp [hcm]⟩

theorem tryDecryptOutput_encryptNote_iff (hdh : X25519.Commutative)
    (haead : ChaCha20Poly1305.Correct) (ivk : IncomingViewKey) (esk senderOvk : Bytes32)
    (note : Note) :
    let out := encryptNote esk note note.pkD senderOvk
    tryDecryptOutput out.encCiphertext out.ephemeralKey note.commitment ivk = some note ↔
      note.pkD = derivePkdFromIvk ivk.ivk := by
  intro out
  rw [tryDecryptOutput_eq_some_iff]
  constructor
  · rintro ⟨plaintext, -, hnote, -⟩
    exact Note.pkD_of_fromPlaintext hnote
  · intro hpkD
    have hshared : X25519.diffieHellman ivk.ivk out.ephemeralKey =
        X25519.diffieHellman esk note.pkD := by
      calc
        _ = X25519.diffieHellman esk (X25519.publicKey ivk.ivk) := hdh ivk.ivk esk
        _ = _ := by rw [hpkD, derivePkdFromIvk]
    refine ⟨note.toPlaintext, ?_, ?_, rfl⟩
    · rw [hshared]
      exact haead _ note
    · rw [Note.fromPlaintext_toPlaintext, ← hpkD]

/-- What is encrypted to the public key of a viewing key is what the key opens, and
what it opens of any ciphertext bears its public key and the given commitment. -/
theorem stealth_round_trip (ivk : IncomingViewKey) :
    (X25519.Commutative → ChaCha20Poly1305.Correct →
      ∀ (esk senderOvk : Bytes32) (note : Note), note.pkD = derivePkdFromIvk ivk.ivk →
        let out := encryptNote esk note note.pkD senderOvk
        tryDecryptOutput out.encCiphertext out.ephemeralKey note.commitment ivk = some note) ∧
    ∀ (ciphertext : Bytes) (epk : Bytes32) (cm : Hash32) (note : Note),
      tryDecryptOutput ciphertext epk cm ivk = some note →
        note.commitment = cm ∧ note.pkD = derivePkdFromIvk ivk.ivk := by
  constructor
  · intro hdh haead esk senderOvk note hpkD
    exact (tryDecryptOutput_encryptNote_iff hdh haead ivk esk senderOvk note).mpr hpkD
  · intro ciphertext epk cm note hopened
    obtain ⟨plaintext, -, hnote, hcm⟩ := tryDecryptOutput_eq_some_iff.mp hopened
    exact ⟨hcm, Note.pkD_of_fromPlaintext hnote⟩

/-- A note sent to an address of the wallet can be opened with its viewing key
exactly when the digest behind the address is the public key of that key. -/
theorem delivered_iff (hdh : X25519.Commutative) (haead : ChaCha20Poly1305.Correct)
    (ivk : IncomingViewKey) (diversifierIndex : UInt64) (senderOvk : Bytes32) (value : UInt64)
    (rcm rho esk : Bytes32) :
    let addr := ivk.paymentAddress diversifierIndex
    let note : Note :=
      { value := value, rcm := rcm, rho := rho, pkD := addr.pkD, diversifier := addr.diversifier }
    let out := encryptNote esk note addr.pkD senderOvk
    tryDecryptOutput out.encCiphertext out.ephemeralKey note.commitment ivk = some note ↔
      Blake3.hash ("NoirNet_pkd_v1".toUTF8.toList ++ ivk.ivk.toList ++ addr.diversifier.toList) =
        X25519.publicKey ivk.ivk := by
  intro addr note out
  exact tryDecryptOutput_encryptNote_iff hdh haead ivk esk senderOvk note

end

/-! ## An address of a wallet -/

section

attribute [local instance] Blake3.sum X25519.plain ChaCha20Poly1305.plain

theorem commutative_plain : X25519.Commutative := by
  intro a b
  show Vector.zipWith (· + ·) a b = Vector.zipWith (· + ·) b a
  ext i hi
  simp [UInt8.add_comm]

theorem tagged_plain : ChaCha20Poly1305.Tagged := by
  intro key nonce plaintext
  have hlen : (plaintext ++ plainTag key nonce).length = plaintext.length + 16 := by
    simp [plainTag]
  exact hlen

theorem inverts_plain : ChaCha20Poly1305.Inverts := by
  intro key nonce plaintext
  have hlen : (plaintext ++ plainTag key nonce).length = plaintext.length + 16 :=
    tagged_plain key nonce plaintext
  have hsub : (plaintext ++ plainTag key nonce).length - 16 = plaintext.length := by omega
  rw [show ChaCha20Poly1305.decrypt key nonce (ChaCha20Poly1305.encrypt key nonce plaintext) =
    if 16 ≤ (plaintext ++ plainTag key nonce).length ∧
        (plaintext ++ plainTag key nonce).drop ((plaintext ++ plainTag key nonce).length - 16) =
          plainTag key nonce then
      some ((plaintext ++ plainTag key nonce).take
        ((plaintext ++ plainTag key nonce).length - 16))
    else none from rfl]
  rw [hsub, List.drop_left, List.take_left, if_pos ⟨by omega, rfl⟩]

theorem authentic_plain : ChaCha20Poly1305.Authentic := by
  intro key nonce ciphertext plaintext hdecrypt
  have htag : ciphertext.drop (ciphertext.length - 16) = plainTag key nonce := by
    by_contra h
    rw [show ChaCha20Poly1305.decrypt key nonce ciphertext = none from
      if_neg fun hyes => h hyes.2] at hdecrypt
    cases hdecrypt
  refine ⟨ciphertext.take (ciphertext.length - 16), ?_⟩
  calc
    _ = ciphertext.take (ciphertext.length - 16) ++ plainTag key nonce := rfl
    _ = ciphertext := by rw [← htag, List.take_append_drop]

theorem correct_chacha20_plain : ChaCha20Poly1305.Correct := inverts_plain.correct

def ownNote : Note where
  value := 5
  rcm := fill 32 3
  rho := fill 32 4
  pkD := fill 32 1
  diversifier := fill 11 7

theorem own_note_round_trip :
    X25519.Commutative ∧ ChaCha20Poly1305.Correct ∧
      let out := encryptNote (fill 32 6) ownNote ownNote.pkD (fill 32 2)
      tryDecryptOutput out.encCiphertext out.ephemeralKey ownNote.commitment ⟨fill 32 1⟩ =
          some ownNote ∧
        ownNote.commitment = ownNote.commitment ∧ ownNote.pkD = derivePkdFromIvk (fill 32 1) := by
  have hround := stealth_round_trip ⟨fill 32 1⟩
  have hopened := hround.1 commutative_plain correct_chacha20_plain (fill 32 6) (fill 32 2)
    ownNote rfl
  exact ⟨commutative_plain, correct_chacha20_plain, hopened, hround.2 _ _ _ _ hopened⟩

theorem payment_address_undeliverable :
    ¬ ∀ (ivk : IncomingViewKey) (diversifierIndex : UInt64) (senderOvk : Bytes32) (value : UInt64)
        (rcm rho esk : Bytes32),
      let addr := ivk.paymentAddress diversifierIndex
      let note : Note :=
        { value := value, rcm := rcm, rho := rho, pkD := addr.pkD,
          diversifier := addr.diversifier }
      let out := encryptNote esk note addr.pkD senderOvk
      tryDecryptOutput out.encCiphertext out.ephemeralKey note.commitment ivk = some note := by
  intro h
  exact absurd (h ⟨fill 32 1⟩ 0 (fill 32 2) 5 (fill 32 3) (fill 32 4) (fill 32 6)) (by
    decide +kernel)

theorem payment_delivered_iff :
    X25519.Commutative ∧ ChaCha20Poly1305.Correct ∧
      let addr := IncomingViewKey.paymentAddress ⟨fill 32 1⟩ 0
      let note : Note :=
        { value := 5, rcm := fill 32 3, rho := fill 32 4, pkD := addr.pkD,
          diversifier := addr.diversifier }
      let out := encryptNote (fill 32 6) note addr.pkD (fill 32 2)
      (tryDecryptOutput out.encCiphertext out.ephemeralKey note.commitment ⟨fill 32 1⟩ =
          some note ↔
        Blake3.hash ("NoirNet_pkd_v1".toUTF8.toList ++ (fill 32 1).toList ++
          addr.diversifier.toList) = X25519.publicKey (fill 32 1)) :=
  ⟨commutative_plain, correct_chacha20_plain,
    delivered_iff commutative_plain correct_chacha20_plain ⟨fill 32 1⟩ 0 (fill 32 2) 5 (fill 32 3)
      (fill 32 4) (fill 32 6)⟩

end

end NoirNet
