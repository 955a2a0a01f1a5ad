import NoirNet.Crypto.Vrf
import NoirNet.Identifiers
import NoirNet.Lib.Schnorr
import NoirNet.Proofs.Delivery

/-!
# The outputs that a key can prove

The output of `vrf_prove` is the digest of an Ed25519 signature, and a signature
begins with a commitment of the signer's choice.  To each commitment there is a
response that verifies, so a key has as many outputs for an input as the group
has elements.

* `vrfVerify_iff`: what `vrf_verify` accepts;
* `vrfVerify_vrfProve`: what `vrf_prove` makes is accepted;
* `ncard_outputs`: how many outputs are accepted;
* `uniqueOutput_iff`: when there is one only.
-/

namespace NoirNet

open Lib

/-! ## What is assumed of Ed25519 -/

/-- Verification is Schnorr's equation in a group of `q` elements, with a challenge
computed from commitment, key and message. -/
structure Ed25519.Equation [Ed25519] (q : ℕ) (G : Type) [AddCommGroup G]
    [Module (ZMod q) G] where
  base : G
  point : VerifyingKey → G
  encode : G → Bytes32
  scalarBytes : ZMod q → Bytes32
  challenge : Bytes32 → VerifyingKey → Bytes → ZMod q
  card : Nat.card G = q
  base_ne_zero : base ≠ 0
  encode_injective : Function.Injective encode
  verify_iff : ∀ vk msg sig, verify vk msg sig = true ↔
    ∃ r s, sig = encode r ++ scalarBytes s ∧
      Schnorr.Accepts base (point vk) (challenge (encode r) vk msg) r s

/-- A seed determines the secret of its key and a nonce for each message; the signature
is the honest answer. -/
structure Ed25519.Signing [Ed25519] {q : ℕ} {G : Type} [AddCommGroup G] [Module (ZMod q) G]
    (eqn : Equation q G) where
  secret : Bytes32 → ZMod q
  nonce : Bytes32 → Bytes → ZMod q
  publicKey_spec : ∀ seed, ∃ vk, verifyingKeyFromBytes (publicKey seed) = some vk ∧
    eqn.point vk = secret seed • eqn.base ∧
    ∀ msg, let r := nonce seed msg • eqn.base
      sign seed msg = eqn.encode r ++
        eqn.scalarBytes (nonce seed msg + eqn.challenge (eqn.encode r) vk msg * secret seed)

section

variable [Blake3] [Ed25519]

def acceptedProofs (key : Bytes32) (input : Bytes) : Set Bytes :=
  {proof | ∃ out, vrfVerify key input out = true ∧ out.proof = proof}

def acceptedOutputs (key : Bytes32) (input : Bytes) : Set Bytes32 :=
  {output | ∃ out, vrfVerify key input out = true ∧ out.output = output}

/-- Whatever is accepted for the key and the input has one output, and what the owner
of the key proves is accepted. -/
def UniqueOutput (key : Bytes32) (input : Bytes) : Prop :=
  (∀ a b : VrfOutput, vrfVerify key input a = true → vrfVerify key input b = true →
    a.output = b.output) ∧
  ∀ seed, Ed25519.publicKey seed = key → vrfVerify key input (vrfProve seed input) = true

/-! ## What is accepted -/

/-- A signature as `vrf_prove` returns it. -/
def VrfOutput.ofSignature (sig : Bytes64) : VrfOutput where
  output := Blake3.hash sig.toList
  proof := sig.toList

theorem vrfVerify_iff {key : Bytes32} {input : Bytes} {out : VrfOutput} :
    vrfVerify key input out = true ↔
      ∃ vk sig, Ed25519.verifyingKeyFromBytes key = some vk ∧
        Ed25519.verify vk (vrfMessage input) sig = true ∧ VrfOutput.ofSignature sig = out := by
  cases hkey : Ed25519.verifyingKeyFromBytes key with
  | none => simp [vrfVerify, hkey]
  | some vk =>
      have hslice (sig : Bytes64) : slice 64 sig.toList 0 = sig := by
        have hsig := slice_append [] [] sig
        rwa [List.append_nil] at hsig
      rw [vrfVerify, hkey]
      constructor
      · intro hverify
        by_cases hlen : out.proof.length = 64
        · have hproof : (slice 64 out.proof 0).toList = out.proof := by
            rw [toList_slice (by omega), List.drop_zero, ← hlen, List.take_length]
          simp [hlen] at hverify
          refine ⟨vk, slice 64 out.proof 0, rfl, hverify.1, ?_⟩
          rw [VrfOutput.ofSignature, ← hverify.2, hproof]
        · simp [hlen] at hverify
      · intro h
        obtain ⟨vk', sig, hvk, hverify, rfl⟩ := h
        cases hvk
        simp [VrfOutput.ofSignature, hslice, hverify]

theorem uniqueOutput_of_no_key {key : Bytes32} {input : Bytes}
    (hkey : Ed25519.verifyingKeyFromBytes key = none)
    (hhonest : ∀ seed, Ed25519.publicKey seed ≠ key) : UniqueOutput key input := by
  refine ⟨?_, ?_⟩
  · intro a b ha _
    obtain ⟨vk, -, hvk, -, -⟩ := vrfVerify_iff.mp ha
    rw [hkey] at hvk
    cases hvk
  · intro seed hseed
    exact absurd hseed (hhonest seed)

end

/-! ## What a key can prove -/

section

variable [Blake3] [Ed25519] {q : ℕ} {G : Type} [AddCommGroup G] [Module (ZMod q) G]
  (eqn : Ed25519.Equation q G)

def Ed25519.Equation.answers (vk : Ed25519.VerifyingKey) (input : Bytes) : Set (G × ZMod q) :=
  Schnorr.transcripts eqn.base (eqn.point vk) fun r =>
    eqn.challenge (eqn.encode r) vk (vrfMessage input)

def Ed25519.Equation.outputOf (t : G × ZMod q) : VrfOutput :=
  VrfOutput.ofSignature (eqn.encode t.1 ++ eqn.scalarBytes t.2)

theorem proof_outputOf (t : G × ZMod q) :
    (eqn.outputOf t).proof = (eqn.encode t.1 ++ eqn.scalarBytes t.2).toList := rfl

theorem vrfVerify_iff_answered {key : Bytes32} {vk : Ed25519.VerifyingKey}
    (hkey : Ed25519.verifyingKeyFromBytes key = some vk) {input : Bytes} {out : VrfOutput} :
    vrfVerify key input out = true ↔ ∃ t ∈ eqn.answers vk input, eqn.outputOf t = out := by
  rw [vrfVerify_iff]
  constructor
  · intro h
    obtain ⟨vk', sig, hvk, hverify, hout⟩ := h
    cases hkey.symm.trans hvk
    obtain ⟨r, s, rfl, haccepts⟩ := (eqn.verify_iff _ _ _).mp hverify
    exact ⟨(r, s), haccepts, hout⟩
  · intro h
    obtain ⟨t, ht, hout⟩ := h
    exact ⟨vk, _, hkey, (eqn.verify_iff _ _ _).mpr ⟨t.1, t.2, rfl, ht⟩, hout⟩

omit [Blake3] in
theorem eq_of_commitment_eq [Fact q.Prime] {vk : Ed25519.VerifyingKey} {input : Bytes}
    {t t' : G × ZMod q} (ht : t ∈ eqn.answers vk input) (ht' : t' ∈ eqn.answers vk input)
    (h : t.1 = t'.1) : t = t' :=
  Schnorr.eq_of_commitment_eq eqn.card eqn.base_ne_zero ht ht' h

theorem injOn_proof [Fact q.Prime] (vk : Ed25519.VerifyingKey) (input : Bytes) :
    Set.InjOn (fun t => (eqn.outputOf t).proof) (eqn.answers vk input) := by
  intro t ht t' ht' heq
  have hbytes : eqn.encode t.1 ++ eqn.scalarBytes t.2 =
      eqn.encode t'.1 ++ eqn.scalarBytes t'.2 := by
    simp only [proof_outputOf] at heq
    exact Vector.toList_inj.mp heq
  have hcommitment : t.1 = t'.1 := by
    apply eqn.encode_injective
    exact (Vector.append_inj hbytes).1
  exact eq_of_commitment_eq eqn ht ht' hcommitment

end

section

variable [Blake3] [Ed25519] {q : ℕ} {G : Type} [AddCommGroup G] [Module (ZMod q) G]

/-- A key has as many outputs for an input as the group has elements. -/
theorem ncard_outputs [Fact q.Prime] (eqn : Ed25519.Equation q G) {key : Bytes32} {input : Bytes}
    {vk : Ed25519.VerifyingKey} (hkey : Ed25519.verifyingKeyFromBytes key = some vk)
    (hfree : Blake3.CollisionFree (acceptedProofs key input)) :
    (acceptedOutputs key input).ncard = q := by
  have himage : acceptedOutputs key input =
      (fun t => (eqn.outputOf t).output) '' eqn.answers vk input := by
    ext output
    constructor
    · intro h
      obtain ⟨out, hverify, houtput⟩ := h
      obtain ⟨t, ht, rfl⟩ := (vrfVerify_iff_answered eqn hkey).mp hverify
      exact ⟨t, ht, houtput⟩
    · intro h
      obtain ⟨t, ht, houtput⟩ := h
      exact ⟨eqn.outputOf t, (vrfVerify_iff_answered eqn hkey).mpr ⟨t, ht, rfl⟩, houtput⟩
  have hproof (t) (ht : t ∈ eqn.answers vk input) :
      (eqn.outputOf t).proof ∈ acceptedProofs key input :=
    ⟨eqn.outputOf t, (vrfVerify_iff_answered eqn hkey).mpr ⟨t, ht, rfl⟩, rfl⟩
  have hinjective : Set.InjOn (fun t => (eqn.outputOf t).output) (eqn.answers vk input) := by
    intro t ht t' ht' heq
    apply injOn_proof eqn vk input ht ht'
    exact hfree (hproof t ht) (hproof t' ht') heq
  rw [himage, hinjective.ncard_image]
  exact Schnorr.ncard_transcripts eqn.card eqn.base_ne_zero _ _

/-- A group of prime order has two elements, so a key that decodes has two outputs. -/
theorem not_uniqueOutput [Fact q.Prime] (eqn : Ed25519.Equation q G) {key : Bytes32}
    {input : Bytes} {vk : Ed25519.VerifyingKey}
    (hkey : Ed25519.verifyingKeyFromBytes key = some vk)
    (hfree : Blake3.CollisionFree (acceptedProofs key input)) : ¬ UniqueOutput key input := by
  intro h
  have hcard := ncard_outputs eqn hkey hfree
  have htwo : 2 ≤ q := (Fact.out : q.Prime).two_le
  have hone : (acceptedOutputs key input).ncard ≤ 1 := by
    have hfinite : (acceptedOutputs key input).Finite := Set.finite_of_ncard_pos (by omega)
    apply (Set.ncard_le_one hfinite).mpr
    intro output houtput output' houtput'
    obtain ⟨a, ha, rfl⟩ := houtput
    obtain ⟨b, hb, rfl⟩ := houtput'
    exact h.1 a b ha hb
  omega

/-! ## When the output is unique -/

theorem vrfVerify_vrfProve {eqn : Ed25519.Equation q G} (signing : Ed25519.Signing eqn)
    (seed : Bytes32) (input : Bytes) :
    vrfVerify (Ed25519.publicKey seed) input (vrfProve seed input) = true := by
  obtain ⟨vk, hkey, hpoint, hsign⟩ := signing.publicKey_spec seed
  have hverify : Ed25519.verify vk (vrfMessage input)
      (Ed25519.sign seed (vrfMessage input)) = true := by
    apply (eqn.verify_iff _ _ _).mpr
    refine ⟨_, _, hsign (vrfMessage input), ?_⟩
    rw [hpoint]
    exact Schnorr.accepts_honest _ _ _ _
  exact vrfVerify_iff.mpr ⟨vk, _, hkey, hverify, rfl⟩

/-- The output is unique exactly where `vrf_verify` rejects the key, and with it every
output. -/
theorem uniqueOutput_iff [Fact q.Prime] {eqn : Ed25519.Equation q G}
    (signing : Ed25519.Signing eqn) (key : Bytes32) (input : Bytes)
    (hfree : Blake3.CollisionFree (acceptedProofs key input)) :
    UniqueOutput key input ↔ Ed25519.verifyingKeyFromBytes key = none := by
  constructor
  · intro hunique
    cases hkey : Ed25519.verifyingKeyFromBytes key with
    | none => rfl
    | some vk => exact absurd hunique (not_uniqueOutput eqn hkey hfree)
  · intro hkey
    apply uniqueOutput_of_no_key hkey
    intro seed hseed
    obtain ⟨vk, hvk, -, -⟩ := signing.publicKey_spec seed
    rw [hseed, hkey] at hvk
    cases hvk

end

/-! ## The group of two elements -/

section

def encodeBit (r : ZMod 2) : Bytes32 := fill 32 (if r = 0 then 0 else 1)

def bitChallenge (r : Bytes32) (msg : Bytes) : ZMod 2 :=
  if (r.toList ++ msg).foldl (· + ·) 0 % 2 = 0 then 0 else 1

def bitSecret (seed : Bytes32) : ZMod 2 := if seed = fill 32 1 then 1 else 0

def decodeBit (key : Bytes32) : Option (ZMod 2) :=
  if key = encodeBit 0 then some 0 else if key = encodeBit 1 then some 1 else none

def bitSignature (r vk : ZMod 2) (msg : Bytes) : Bytes64 :=
  encodeBit r ++ encodeBit (r + bitChallenge (encodeBit r) msg * vk)

def bitVerify (vk : ZMod 2) (msg : Bytes) (sig : Bytes64) : Bool :=
  sig = bitSignature 0 vk msg || sig = bitSignature 1 vk msg

/-- Schnorr signatures over the group of two elements, with nonce one. -/
@[reducible] def bitEd25519 : Ed25519 where
  VerifyingKey := ZMod 2
  sign seed msg := bitSignature 1 (bitSecret seed) msg
  publicKey seed := encodeBit (bitSecret seed)
  verifyingKeyFromBytes := decodeBit
  verify := bitVerify

attribute [local instance] Blake3.front bitEd25519

theorem encodeBit_injective : Function.Injective encodeBit := by
  decide

theorem decodeBit_encodeBit (r : ZMod 2) : decodeBit (encodeBit r) = some r := by
  revert r
  decide

theorem bit_cases (r : ZMod 2) : r = 0 ∨ r = 1 := by
  revert r
  decide

theorem bitVerify_iff {vk : ZMod 2} {msg : Bytes} {sig : Bytes64} :
    bitVerify vk msg sig = true ↔ ∃ r s, sig = encodeBit r ++ encodeBit s ∧
      Schnorr.Accepts 1 vk (bitChallenge (encodeBit r) msg) r s := by
  simp only [bitVerify, Bool.or_eq_true, decide_eq_true_eq, Schnorr.Accepts, smul_eq_mul, mul_one]
  constructor
  · intro h
    cases h with
    | inl hzero => exact ⟨0, _, hzero, rfl⟩
    | inr hone => exact ⟨1, _, hone, rfl⟩
  · intro h
    obtain ⟨r, s, hsig, rfl⟩ := h
    cases bit_cases r with
    | inl hr => rw [hr] at hsig; exact Or.inl hsig
    | inr hr => rw [hr] at hsig; exact Or.inr hsig

def bitEquation : Ed25519.Equation 2 (ZMod 2) where
  base := 1
  point vk := vk
  encode := encodeBit
  scalarBytes := encodeBit
  challenge r _ msg := bitChallenge r msg
  card := Nat.card_zmod 2
  base_ne_zero := by decide
  encode_injective := encodeBit_injective
  verify_iff _ _ _ := bitVerify_iff

def bitSigning : Ed25519.Signing bitEquation where
  secret := bitSecret
  nonce _ _ := 1
  publicKey_spec := by
    intro seed
    refine ⟨bitSecret seed, decodeBit_encodeBit _, ?_, ?_⟩
    · exact (mul_one _).symm
    · intro msg
      rfl

theorem front_append (a b : Bytes32) : Blake3.hash (a ++ b).toList = a := by
  have hslice : Blake3.hash (a ++ b).toList = slice 32 (a.toList ++ b.toList) 0 := by
    rw [← Vector.toList_append]
    simp [Blake3.hash, slice]
  rw [hslice]
  exact slice_append [] b.toList a

theorem collisionFree_bit (key : Bytes32) (input : Bytes) :
    Blake3.CollisionFree (acceptedProofs key input) := by
  intro proof hproof proof' hproof' hdigest
  obtain ⟨out, hverify, rfl⟩ := hproof
  obtain ⟨out', hverify', rfl⟩ := hproof'
  obtain ⟨vk, -, hkey, -, -⟩ := vrfVerify_iff.mp hverify
  obtain ⟨t, ht, rfl⟩ := (vrfVerify_iff_answered bitEquation hkey).mp hverify
  obtain ⟨t', ht', rfl⟩ := (vrfVerify_iff_answered bitEquation hkey).mp hverify'
  have hcommitment : t.1 = t'.1 := by
    apply bitEquation.encode_injective
    rw [proof_outputOf, proof_outputOf, front_append, front_append] at hdigest
    exact hdigest
  rw [eq_of_commitment_eq bitEquation ht ht' hcommitment]

theorem two_outputs_accepted :
    ¬ ∀ (key : Bytes32) (input : Bytes), UniqueOutput key input := by
  intro h
  exact not_uniqueOutput bitEquation (decodeBit_encodeBit 1) (collisionFree_bit _ [])
    (h (encodeBit 1) [])

theorem bit_uniqueOutput_iff :
    Blake3.CollisionFree (acceptedProofs (encodeBit 1) []) ∧
      (UniqueOutput (encodeBit 1) [] ↔ Ed25519.verifyingKeyFromBytes (encodeBit 1) = none) :=
  ⟨collisionFree_bit _ [], uniqueOutput_iff bitSigning _ _ (collisionFree_bit _ [])⟩

end

end NoirNet
