import Mathlib.Algebra.Field.Rat
import Mathlib.Algebra.Order.Ring.Rat
import NoirNet.Proofs.SpendProof
import NoirNet.Zk.Prover

/-!
# A prover over the rationals

A proof says in its first byte whether its steps were satisfied, and its length
says how many there were.
-/

namespace NoirNet

namespace RationalNova

abbrev Step := SpendWitness ℚ

def Holds (ws : List Step) : Prop := ∀ w ∈ ws, w.secretKey * w.noteValue = w.publicNullifier

instance (ws : List Step) : Decidable (Holds ws) :=
  inferInstanceAs (Decidable (∀ w ∈ ws, _))

def encode (ws : List Step) : Bytes :=
  (if Holds ws then 1 else 0) :: List.replicate ws.length 0

def decode : Bytes → Option (UInt8 × Nat)
  | [] => none
  | b :: bytes => some (b, bytes.length)

@[reducible] def nova : Nova where
  F := ℚ
  RecursiveSNARK := UInt8 × Nat
  deserialize := decode
  verify p n _ := p = (1, n)

@[reducible] def prover : letI := nova; NovaProver :=
  letI := nova
  { ofU64 := fun v => (v.toNat : ℚ)
    prove := fun _ ws => some (encode ws) }

theorem verify_encode {ws : List Step} {n : Nat} :
    letI := nova; verifySpendProof (encode ws) n = .ok true ↔ n = ws.length ∧ Holds ws := by
  let _ := nova
  rw [verifySpendProof_eq_true_iff]
  have hlength : (List.replicate ws.length (0 : UInt8)).length = ws.length :=
    List.length_replicate
  constructor
  · rintro ⟨p, hdecode, hverify⟩
    cases hdecode
    obtain ⟨hfirst, hn⟩ := Prod.mk.inj (of_decide_eq_true hverify)
    refine ⟨hn.symm.trans hlength, ?_⟩
    by_contra hfails
    rw [if_neg hfails] at hfirst
    cases hfirst
  · rintro ⟨rfl, hholds⟩
    exact ⟨_, rfl, decide_eq_true (Prod.ext (if_pos hholds) hlength)⟩

theorem prover_faithful : let _ := nova; let _ := prover; NovaProver.Faithful := by
  intro _ _
  refine ⟨?_, Nat.cast_one, fun v v' h => UInt64.toNat_inj.mp (Nat.cast_injective (R := ℚ) h)⟩
  intro draws w ws bytes hprove
  obtain rfl := Option.some.inj hprove
  refine ⟨List.cons_ne_nil _ _, ?_⟩
  intro n
  rw [satisfiesSteps_iff]
  exact verify_encode

end RationalNova

end NoirNet
