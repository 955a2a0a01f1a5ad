import NoirNet.Concrete
import NoirNet.Crypto.Keys
import NoirNet.Identifiers

/-!
# What a binding signature binds

`signing_bytes` leaves out most fields of a transaction, and separates none of
the lists, strings and byte strings it concatenates: a spend reads as an output,
and the bytes of a contract call as further spends and outputs.

* `signingBytes_eq_iff`, `bindingInput_eq_iff`: when two transactions are encoded
  alike;
* `binds_iff`: when a signature of one is none of the other.
-/

namespace NoirNet

open Lib.Wire

namespace Transaction

/-! ## The encoding -/

def unsigned (tx : Transaction) : Transaction :=
  { tx with
    spends := tx.spends.map fun spend => { spend with spendAuthSig := Vector.replicate 64 0 }
    bindingSig := Vector.replicate 64 0
    aggregateSpendProof := [] }

def records (tx : Transaction) : List (Hash32 × Bytes32) :=
  tx.spends.map (fun spend => (spend.nullifier, spend.cv)) ++
    tx.outputs.map fun out => (out.noteCommitment, out.cv)

def contractBytes (tx : Transaction) : Bytes :=
  tx.contractCall.elim [] ContractCall.signingBytes ++ tx.deployContract.getD []

def cvs (tx : Transaction) : List Bytes32 := tx.spends.map (·.cv) ++ tx.outputs.map (·.cv)

def recordBytes (record : Hash32 × Bytes32) : Bytes := record.1.toList ++ record.2.toList

theorem recordBytes_injective : Function.Injective recordBytes := by
  intro r r' h
  obtain ⟨hfirst, hsecond⟩ := List.append_inj h (by simp)
  exact Prod.ext (Vector.toList_inj.mp hfirst) (Vector.toList_inj.mp hsecond)

theorem length_recordBytes (record : Hash32 × Bytes32) : (recordBytes record).length = 64 := by
  simp [recordBytes]

theorem signingBytes_eq (tx : Transaction) :
    tx.signingBytes = [tx.version] ++ (putU32 tx.chainId ++ (putU64 tx.fee ++
      (putU64 tx.timestamp ++ (tx.records.flatMap recordBytes ++ tx.contractBytes)))) := by
  have hrecords : tx.records.flatMap recordBytes =
      tx.spends.flatMap SpendDescription.signingBytes ++
        tx.outputs.flatMap OutputDescription.signingBytes := by
    rw [records, List.flatMap_append, List.flatMap_map, List.flatMap_map]
    rfl
  rw [hrecords]
  simp only [signingBytes, contractBytes, List.append_assoc]

def SameHeader (a b : Transaction) : Prop :=
  a.version = b.version ∧ a.chainId = b.chainId ∧ a.fee = b.fee ∧ a.timestamp = b.timestamp

/-- The contract part of one can be read as the spends and outputs that the other has more. -/
def RecordsBlur (a b : Transaction) : Prop :=
  Spells recordBytes a.records b.records a.contractBytes b.contractBytes ∨
    Spells recordBytes b.records a.records b.contractBytes a.contractBytes

/-- The signing bytes of one can be read as the value commitments that the other has more. -/
def CommitmentsBlur (a b : Transaction) : Prop :=
  Spells Vector.toList a.cvs b.cvs a.signingBytes b.signingBytes ∨
    Spells Vector.toList b.cvs a.cvs b.signingBytes a.signingBytes

theorem signingBytes_eq_iff {a b : Transaction} :
    a.signingBytes = b.signingBytes ↔ a.SameHeader b ∧ a.RecordsBlur b := by
  rw [signingBytes_eq, signingBytes_eq, List.singleton_append, List.singleton_append,
    List.cons.injEq, putU32_append_eq_iff, putU64_append_eq_iff, putU64_append_eq_iff,
    flatMap_append_eq_iff 64 length_recordBytes recordBytes_injective, SameHeader, RecordsBlur]
  simp only [and_assoc]

def bindingInput (tx : Transaction) : Bytes :=
  NoirNet.bindingInput (tx.spends.map (·.cv)) (tx.outputs.map (·.cv)) tx.signingBytes

theorem bindingInput_eq_iff {a b : Transaction} :
    a.bindingInput = b.bindingInput ↔ a.CommitmentsBlur b := by
  have hinput (tx : Transaction) : tx.bindingInput =
      "NoirNet_binding_sig_v1".toUTF8.toList ++ (tx.cvs.flatMap Vector.toList ++
        tx.signingBytes) := by
    simp only [bindingInput, NoirNet.bindingInput, cvs, List.flatMap_append, List.append_assoc]
  rw [hinput, hinput, List.append_cancel_left_eq, flatMap_append_eq_iff 32
    (fun _ => Vector.length_toList) (fun _ _ => Vector.toList_inj.mp), CommitmentsBlur]

/-! ## The signature -/

section

variable [Blake3] [Ed25519]

def bind (tx : Transaction) (seed : Bytes32) : Bytes64 :=
  createBindingSig (tx.spends.map (·.cv)) (tx.outputs.map (·.cv)) seed tx.signingBytes

def verifies (tx : Transaction) (seed : Bytes32) (sig : Bytes64) : Bool :=
  verifyBindingSig (tx.spends.map (·.cv)) (tx.outputs.map (·.cv)) sig (Ed25519.publicKey seed)
    tx.signingBytes

/-- If the transactions differ in what is to be signed, so do their signing bytes,
and a signature of `a` is none of `b`. -/
def Binds (seed : Bytes32) (a b : Transaction) : Prop :=
  a.unsigned ≠ b.unsigned → a.signingBytes ≠ b.signingBytes ∧ ¬ b.verifies seed (a.bind seed)

instance (seed : Bytes32) (a b : Transaction) : Decidable (Binds seed a b) :=
  inferInstanceAs (Decidable (_ → _))

theorem verifies_bind_iff (hcorrect : Ed25519.Correct) (hunforgeable : Ed25519.Unforgeable)
    {seed : Bytes32} {a b : Transaction} :
    b.verifies seed (a.bind seed) ↔
      Blake3.hash b.bindingInput = Blake3.hash a.bindingInput := by
  obtain ⟨vk, hkey, hverify⟩ := hcorrect seed (Blake3.hash a.bindingInput)
  rw [verifies, verifyBindingSig, hkey, Option.any_some]
  constructor
  · intro h
    exact hunforgeable seed _ _ vk hkey h
  · intro h
    rw [bindingInput, bindingInput] at h
    rw [h]
    exact hverify

/-- Two transactions differ in their signing bytes, and a binding signature of the
first does not verify for the second, exactly when they agree in all that is to be
signed, or their headers differ or their records do not blur, and neither do their
value commitments. -/
theorem binds_iff (hcorrect : Ed25519.Correct) (hunforgeable : Ed25519.Unforgeable)
    (seed : Bytes32) (a b : Transaction)
    (hfree : Blake3.CollisionFree {data | data ∈ [a.bindingInput, b.bindingInput]}) :
    Binds seed a b ↔
      a.unsigned = b.unsigned ∨
        ¬ (a.SameHeader b ∧ a.RecordsBlur b) ∧ ¬ a.CommitmentsBlur b := by
  have hhash : Blake3.hash b.bindingInput = Blake3.hash a.bindingInput ↔
      a.bindingInput = b.bindingInput := by
    constructor
    · intro h
      exact (hfree (by simp) (by simp) h).symm
    · intro h
      rw [h]
  rw [Binds, verifies_bind_iff hcorrect hunforgeable, hhash, bindingInput_eq_iff, ne_eq, ne_eq,
    signingBytes_eq_iff]
  exact Decidable.imp_iff_not_or.trans (or_congr_left Decidable.not_not)

end

/-! ## Two gas limits -/

section

attribute [local instance] Blake3.sum Ed25519.plain

theorem correct_plain : Ed25519.Correct := by
  intro seed digest
  exact ⟨seed, rfl, decide_eq_true rfl⟩

theorem unforgeable_plain : Ed25519.Unforgeable := by
  intro seed digest digest' vk hkey hverify
  obtain rfl : seed = vk := Option.some.inj hkey
  have hsig : plainSignature seed digest.toList = plainSignature seed digest'.toList :=
    of_decide_eq_true hverify
  apply Vector.ext
  intro i hi
  have hbyte := congrArg (fun sig : Bytes64 => sig.toList[i]?) hsig
  have hi' : i < 64 := by omega
  have hget (d : Bytes32) : (d.toList.take 32 ++ seed.toList)[i]? = some d[i] := by
    rw [List.take_of_length_le (by simp), List.getElem?_append_left (by simpa using hi)]
    simp [hi]
  simp only [plainSignature, Vector.toList_ofFn, List.getElem?_ofFn, hi'] at hbyte
  simpa [hget] using hbyte.symm

def gassed (gasLimit : UInt64) : Transaction :=
  { Transaction.blank [SpendDescription.blank (fill 32 7)] [OutputDescription.blank (fill 32 1)] []
    with gasLimit := gasLimit }

theorem gas_limit_unbound : ¬ ∀ (seed : Bytes32) (a b : Transaction), Binds seed a b := by
  intro h
  exact absurd (h (fill 32 3) (gassed 0) (gassed 1)) (by decide +kernel)

theorem payments_bind_iff :
    Ed25519.Correct ∧ Ed25519.Unforgeable ∧
      (Binds (fill 32 3) (gassed 0) (blank [SpendDescription.blank (fill 32 9)] [] []) ↔
        (gassed 0).unsigned = (blank [SpendDescription.blank (fill 32 9)] [] []).unsigned ∨
          ¬ ((gassed 0).SameHeader (blank [SpendDescription.blank (fill 32 9)] [] []) ∧
            (gassed 0).RecordsBlur (blank [SpendDescription.blank (fill 32 9)] [] [])) ∧
          ¬ (gassed 0).CommitmentsBlur (blank [SpendDescription.blank (fill 32 9)] [] [])) :=
  ⟨correct_plain, unforgeable_plain, binds_iff correct_plain unforgeable_plain _ _ _
    (Blake3.collisionFree_of_nodup (by decide +kernel))⟩

end

end Transaction

end NoirNet
