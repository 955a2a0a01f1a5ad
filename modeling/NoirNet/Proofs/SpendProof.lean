import Mathlib.Algebra.Field.ZMod
import NoirNet.Concrete
import NoirNet.Consensus.Outcome

/-!
# What a spend proof is bound to

Phase 1 hands `verify_spend_proof` the proof bytes and the number of spends.
The circuit allocates `public_nullifier` as witness and passes its state on
unchanged, so nothing of a spend but its presence reaches the verifier: the
same proof is accepted for any nullifiers.
-/

namespace NoirNet

def Transaction.replaceNullifier (tx : Transaction) (i : Nat) (nullifier : Hash32) : Transaction :=
  { tx with spends := tx.spends.modify i fun spend => { spend with nullifier } }

/-! ## The format check does not read nullifiers -/

theorem SpendDescription.length_serialize (spend : SpendDescription) :
    spend.serialize.length = 192 := by
  simp [SpendDescription.serialize]

theorem length_putSpends (spends : List SpendDescription) :
    (Lib.Wire.putVec SpendDescription.serialize spends).length = 8 + 192 * spends.length := by
  rw [Lib.Wire.putVec, List.length_append, Lib.Wire.length_leBytes]
  congr 1
  induction spends with
  | nil => rfl
  | cons spend spends ih =>
      rw [List.flatMap_cons, List.length_append, ih, SpendDescription.length_serialize,
        List.length_cons]
      omega

namespace Transaction

variable (tx : Transaction) (i : Nat) (nullifier : Hash32)

@[simp] theorem length_spends_replaceNullifier :
    (tx.replaceNullifier i nullifier).spends.length = tx.spends.length :=
  List.length_modify ..

@[simp] theorem isEmpty_spends_replaceNullifier :
    (tx.replaceNullifier i nullifier).spends.isEmpty = tx.spends.isEmpty := by
  rw [Bool.eq_iff_iff, List.isEmpty_iff_length_eq_zero, List.isEmpty_iff_length_eq_zero,
    length_spends_replaceNullifier]

theorem serializedSize_replaceNullifier :
    (tx.replaceNullifier i nullifier).serializedSize = tx.serializedSize := by
  have hspends : (Lib.Wire.putVec SpendDescription.serialize
      (tx.replaceNullifier i nullifier).spends).length =
      (Lib.Wire.putVec SpendDescription.serialize tx.spends).length := by
    rw [length_putSpends, length_putSpends, length_spends_replaceNullifier]
  simp only [serializedSize, serialize, List.length_append, hspends]
  rfl

theorem validateFormat_replaceNullifier :
    (tx.replaceNullifier i nullifier).validateFormat = tx.validateFormat := by
  unfold validateFormat
  rw [serializedSize_replaceNullifier, isEmpty_spends_replaceNullifier,
    length_spends_replaceNullifier]
  rfl

end Transaction

/-! ## Phase 1 -/

section

variable [Nova]

theorem verifySpendProof_eq_true_iff {bytes : Bytes} {n : Nat} :
    verifySpendProof bytes n = .ok true ↔
      ∃ p, Nova.deserialize bytes = some p ∧ Nova.verify p n #v[0] := by
  unfold verifySpendProof
  cases Nova.deserialize bytes with
  | none => simp
  | some p => simp

/-- Nothing that phase 1 looks at depends on a nullifier. -/
theorem verifyTransaction_replaceNullifier {tx : Transaction}
    (hpass : verifyTransaction tx = .ok ()) (i : Nat) (nullifier : Hash32) :
    verifyTransaction (tx.replaceNullifier i nullifier) = .ok () := by
  obtain ⟨hproven, hformat⟩ := verifyTransaction_ok_iff.mp hpass
  rw [verifyTransaction_ok_iff, tx.validateFormat_replaceNullifier]
  refine ⟨?_, hformat⟩
  rw [Transaction.Proven, tx.length_spends_replaceNullifier, ne_eq, ← List.isEmpty_iff,
    tx.isEmpty_spends_replaceNullifier, List.isEmpty_iff]
  exact hproven

/-! ## The circuit -/

omit [Nova] in
theorem satisfiesSteps_iff {F : Type} [Mul F] {z : Vector F 1} {ws : List (SpendWitness F)} :
    SatisfiesSteps z ws ↔ ∀ w ∈ ws, w.secretKey * w.noteValue = w.publicNullifier := by
  induction ws generalizing z with
  | nil => simp [SatisfiesSteps]
  | cons w ws ih =>
      have hstep : w.circuit.synthesize {} z =
          .ok ({ aux := [w.noteValue, w.secretKey, w.publicNullifier]
                 constraints := [(w.secretKey, w.noteValue, w.publicNullifier)] }, #v[z.head]) :=
        rfl
      rw [SatisfiesSteps, List.forall_mem_cons, hstep]
      constructor
      · rintro ⟨cs, z', hok, hsat, hrest⟩
        cases hok
        exact ⟨hsat _ List.mem_cons_self, ih.mp hrest⟩
      · rintro ⟨hw, hrest⟩
        exact ⟨_, _, rfl, by simpa [ConstraintSystem.Satisfied] using hw, ih.mpr hrest⟩

omit [Nova] in
/-- No synthesis allocates a public input. -/
theorem synthesize_inputs {F : Type} {circuit : SpendCircuit F} {cs cs' : ConstraintSystem F}
    {z z' : Vector F 1} (h : circuit.synthesize cs z = .ok (cs', z')) :
    cs'.inputs = cs.inputs ∧ z' = #v[z.head] := by
  cases hvalue : circuit.noteValue with
  | none => simp [SpendCircuit.synthesize, SpendCircuit.assigned, hvalue, bind, Except.bind] at h
  | some value =>
      cases hkey : circuit.secretKey with
      | none =>
          simp [SpendCircuit.synthesize, SpendCircuit.assigned, hvalue, hkey, bind,
            Except.bind] at h
      | some key =>
          cases hnullifier : circuit.publicNullifier with
          | none =>
              simp [SpendCircuit.synthesize, SpendCircuit.assigned, hvalue, hkey, hnullifier, bind,
                Except.bind] at h
          | some nullifier =>
              simp only [SpendCircuit.synthesize, SpendCircuit.assigned, hvalue, hkey, hnullifier,
                bind, Except.bind, pure, Except.pure, Except.ok.injEq, Prod.mk.injEq] at h
              obtain ⟨rfl, rfl⟩ := h
              exact ⟨rfl, rfl⟩

/-! ## Binding -/

/-- The proof of the transaction shows, at every step, the image of that spend's
nullifier, and no other nullifier passes phase 1 with it. -/
def BoundToSpends (encode : List (SpendWitness Nova.F) → Bytes) (image : Hash32 → Nova.F)
    (tx : Transaction) : Prop :=
  (∀ ws, tx.aggregateSpendProof = encode ws →
    ws.map (·.publicNullifier) = tx.spends.map fun spend => image spend.nullifier) ∧
  ∀ i nullifier, tx.replaceNullifier i nullifier ≠ tx →
    verifyTransaction (tx.replaceNullifier i nullifier) ≠ .ok ()

omit [Nova] in
theorem exists_replaceNullifier_ne {tx : Transaction} (hspends : tx.spends ≠ []) :
    ∃ nullifier, tx.replaceNullifier 0 nullifier ≠ tx := by
  obtain ⟨spend, spends, hcons⟩ := List.exists_cons_of_ne_nil hspends
  have hne : (fill 32 0 : Hash32) ≠ fill 32 1 := by decide
  have hread (nullifier : Hash32) (h : tx.replaceNullifier 0 nullifier = tx) :
      spend.nullifier = nullifier := by
    have hspend := congrArg (fun tx => tx.spends.map (·.nullifier)) h
    simp [Transaction.replaceNullifier, hcons] at hspend
    exact hspend.symm
  by_cases hzero : tx.replaceNullifier 0 (fill 32 0) = tx
  · refine ⟨fill 32 1, fun hone => hne ?_⟩
    rw [← hread _ hzero, hread _ hone]
  · exact ⟨fill 32 0, hzero⟩

/-- In a block that passes phase 1, every nullifier of a transaction with spends
can be replaced and the block still passes: at every step of the proof some
accepted nullifier is not the one the step shows, and the proof is never bound
to its spends. -/
theorem spend_proof_not_bound {encode : List (SpendWitness Nova.F) → Bytes}
    (hnova : Nova.Exact encode) (image : Hash32 → Nova.F) {before after : List Transaction}
    {tx : Transaction} (hpass : verifyTransactions (before ++ tx :: after) = .ok ())
    (hspends : tx.spends ≠ []) :
    (∀ i nullifier,
        verifyTransactions (before ++ tx.replaceNullifier i nullifier :: after) = .ok ()) ∧
      (∃ ws, tx.aggregateSpendProof = encode ws ∧ ws.length = tx.spends.length ∧
        ∀ w ∈ ws, ∀ a b, image a ≠ image b → ∃ nullifier,
          (∀ i, verifyTransaction (tx.replaceNullifier i nullifier) = .ok ()) ∧
            w.publicNullifier ≠ image nullifier) ∧
      ¬ BoundToSpends encode image tx := by
  rw [verifyTransactions_ok_iff] at hpass
  have htx : verifyTransaction tx = .ok () := hpass tx (by simp)
  have hreplace := verifyTransaction_replaceNullifier htx
  refine ⟨?_, ?_, ?_⟩
  · intro i nullifier
    rw [verifyTransactions_ok_iff]
    intro other hother
    rw [List.mem_append, List.mem_cons] at hother
    rcases hother with hother | rfl | hother
    · exact hpass other (List.mem_append_left _ hother)
    · exact hreplace i nullifier
    · exact hpass other (List.mem_append_right _ (List.mem_cons_of_mem _ hother))
  · obtain ⟨-, hverify⟩ := (verifyTransaction_ok_iff.mp htx).1 hspends
    have haccepts := verifySpendProof_eq_true_iff.mp hverify
    obtain ⟨ws, hlen, -, hbytes⟩ := (hnova.accepts_iff _ _ _).mp haccepts
    refine ⟨ws, hbytes, hlen, ?_⟩
    intro w _ a b hab
    by_cases ha : w.publicNullifier = image a
    · exact ⟨b, fun i => hreplace i b, fun hb => hab (ha.symm.trans hb)⟩
    · exact ⟨a, fun i => hreplace i a, ha⟩
  · rintro ⟨-, hreject⟩
    obtain ⟨nullifier, hne⟩ := exists_replaceNullifier_ne hspends
    exact hreject 0 nullifier hne (hreplace 0 nullifier)

end

/-! ## A concrete verifier -/

namespace BinaryNova

abbrev Step := SpendWitness (ZMod 2)

def byte (x : ZMod 2) : UInt8 := if x = 0 then 0 else 1

def encode (ws : List Step) : Bytes :=
  ws.flatMap fun w => [byte w.noteValue, byte w.secretKey, byte w.publicNullifier]

def bit (b : UInt8) : Option (ZMod 2) := if b = 0 then some 0 else if b = 1 then some 1 else none

def decode : Bytes → Option (List Step)
  | [] => some []
  | v :: k :: n :: bytes => do
      let noteValue ← bit v
      let secretKey ← bit k
      let publicNullifier ← bit n
      let ws ← decode bytes
      return { noteValue, secretKey, publicNullifier } :: ws
  | _ => none

def accepts (ws : List Step) (n : Nat) : Bool :=
  ws.length = n ∧ ∀ w ∈ ws, w.secretKey * w.noteValue = w.publicNullifier

/-- A proof system over the field of two elements whose proofs are the
witnesses, three bytes a step. -/
@[reducible] def nova : Nova where
  F := ZMod 2
  RecursiveSNARK := List Step
  deserialize := decode
  verify ws n _ := accepts ws n

theorem bit_eq_some {b : UInt8} {x : ZMod 2} : bit b = some x ↔ b = byte x := by
  unfold bit byte
  by_cases h0 : b = 0
  · subst h0
    fin_cases x <;> decide
  · by_cases h1 : b = 1
    · subst h1
      fin_cases x <;> decide
    · rw [if_neg h0, if_neg h1]
      by_cases hx : x = 0 <;> simp [hx, h0, h1]

theorem decode_eq_some {bytes : Bytes} {ws : List Step} :
    decode bytes = some ws ↔ bytes = encode ws := by
  induction bytes using decode.induct generalizing ws with
  | case1 => cases ws <;> simp [decode, encode]
  | case2 v k n bytes ih =>
      cases ws with
      | nil => simp [decode, encode, Option.bind_eq_some_iff]
      | cons w ws =>
          simp only [decode, encode, List.flatMap_cons, Option.bind_eq_bind,
            Option.bind_eq_some_iff, bit_eq_some, ih, Option.pure_def, Option.some.injEq,
            List.cons.injEq, List.cons_append, List.nil_append]
          constructor
          · rintro ⟨v', rfl, k', rfl, n', rfl, ws', rfl, rfl, rfl⟩
            exact ⟨rfl, rfl, rfl, rfl⟩
          · rintro ⟨rfl, rfl, rfl, rfl⟩
            exact ⟨_, rfl, _, rfl, _, rfl, _, rfl, rfl, rfl⟩
  | case3 bytes hnil hcons =>
      cases ws with
      | nil => simp_all [decode, encode]
      | cons w ws =>
          constructor
          · intro h
            simp_all [decode]
          · intro h
            exact absurd h (hcons _ _ _ _)

theorem accepts_iff {ws : List Step} {n : Nat} {z : Vector (ZMod 2) 1} :
    accepts ws n = true ↔ ws.length = n ∧ SatisfiesSteps z ws := by
  rw [satisfiesSteps_iff]
  exact decide_eq_true_iff

theorem nova_exact : letI := nova; Nova.Exact encode := by
  let _ := nova
  constructor
  · intro bytes n z0
    constructor
    · rintro ⟨ws, hdecode, hverify⟩
      obtain ⟨hlen, hsat⟩ := accepts_iff.mp hverify
      exact ⟨ws, hlen, hsat, decode_eq_some.mp hdecode⟩
    · rintro ⟨ws, hlen, hsat, hbytes⟩
      exact ⟨ws, decode_eq_some.mpr hbytes, accepts_iff.mpr ⟨hlen, hsat⟩⟩
  · intro ws ws' h
    have hdecode : decode (encode ws) = some ws' := decode_eq_some.mpr h
    rw [decode_eq_some.mpr rfl] at hdecode
    exact Option.some.inj hdecode

def transfer : Transaction :=
  Transaction.blank [SpendDescription.blank (fill 32 1)] [OutputDescription.blank (fill 32 9)]
    (encode [{ noteValue := 1, secretKey := 1, publicNullifier := 1 }])

def image (nullifier : Hash32) : ZMod 2 := (nullifier.head.toNat : ZMod 2)

end BinaryNova

section

open BinaryNova

theorem transfer_proof_reused :
    letI := nova
    verifyTransactions [transfer] = .ok () ∧
      transfer.aggregateSpendProof =
        encode [{ noteValue := 1, secretKey := 1, publicNullifier := 1 }] ∧
      image (fill 32 1) = 1 ∧
      transfer.replaceNullifier 0 (fill 32 2) ≠ transfer ∧
      verifyTransactions [transfer.replaceNullifier 0 (fill 32 2)] = .ok () ∧
      image (fill 32 2) ≠ 1 := by
  decide +kernel

theorem transfer_not_bound :
    letI := nova
    (∀ i nullifier,
      verifyTransactions ([] ++ transfer.replaceNullifier i nullifier :: []) = .ok ()) ∧
      (∃ ws, transfer.aggregateSpendProof = encode ws ∧ ws.length = transfer.spends.length ∧
        ∀ w ∈ ws, ∀ a b, image a ≠ image b → ∃ nullifier,
          (∀ i, verifyTransaction (transfer.replaceNullifier i nullifier) = .ok ()) ∧
            w.publicNullifier ≠ image nullifier) ∧
      ¬ BoundToSpends encode image transfer :=
  letI := nova
  have hpass : verifyTransactions ([] ++ transfer :: []) = .ok () := by decide +kernel
  spend_proof_not_bound nova_exact image hpass (by decide)

end

end NoirNet
