import Mathlib.Algebra.Order.Ring.Nat
import NoirNet.Concrete
import NoirNet.Crypto.Commitment
import NoirNet.Identifiers

/-!
# Value balance and note commitments

* `checkValueBalance_iff`: the balance check decides a congruence modulo `2 ^ 64`;
* `balance_exact_iff`: when that is equality of the sums;
* `noteCommitment_eq`: `note_commitment` is the commitment of the note with `pk_d`
  and `rcm` exchanged;
* `opens_both_iff`: which two notes one commitment opens to;
* `commitments_agree_iff`: when the two functions are one and bind.
-/

namespace NoirNet

open Lib.Wire

/-! ## Value balance -/

section

def totalValue (values : List UInt64) : Nat := (values.map UInt64.toNat).sum

theorem toNat_foldl_values (values : List UInt64) (acc : UInt64) :
    (values.foldl (· + ·) acc).toNat = (acc.toNat + totalValue values) % 2 ^ 64 := by
  induction values generalizing acc with
  | nil => simp [totalValue, Nat.mod_eq_of_lt acc.toNat_lt]
  | cons value values ih =>
      have hsum : totalValue (value :: values) = value.toNat + totalValue values := by
        simp [totalValue]
      rw [List.foldl_cons, ih, UInt64.toNat_add, hsum]
      omega

variable (spendCvs outputCvs : List Bytes32) (fee : UInt64) (spendValues outputValues : List UInt64)

theorem checkValueBalance_iff :
    checkValueBalance spendCvs outputCvs fee spendValues outputValues = true ↔
      totalValue spendValues % 2 ^ 64 = (totalValue outputValues + fee.toNat) % 2 ^ 64 := by
  have hin := toNat_foldl_values spendValues 0
  have hout := toNat_foldl_values outputValues 0
  rw [UInt64.toNat_zero, Nat.zero_add] at hin hout
  rw [checkValueBalance, beq_iff_eq, ← UInt64.toNat_inj, UInt64.toNat_add, hin, hout,
    Nat.mod_add_mod]

/-- The two sums are not a positive multiple of `2 ^ 64` apart. -/
def NoWrap (fee : UInt64) (spendValues outputValues : List UInt64) : Prop :=
  ∀ k, 0 < k →
    totalValue spendValues ≠ totalValue outputValues + fee.toNat + k * 2 ^ 64 ∧
      totalValue outputValues + fee.toNat ≠ totalValue spendValues + k * 2 ^ 64

theorem noWrap_of_lt {fee : UInt64} {spendValues outputValues : List UInt64}
    (hin : totalValue spendValues < 2 ^ 64)
    (hout : totalValue outputValues + fee.toNat < 2 ^ 64) :
    NoWrap fee spendValues outputValues := by
  intro k hk
  omega

/-- The check is exact for all sums but those a positive multiple of `2 ^ 64` apart. -/
theorem balance_exact_iff :
    (checkValueBalance spendCvs outputCvs fee spendValues outputValues = true ↔
        totalValue spendValues = totalValue outputValues + fee.toNat) ↔
      NoWrap fee spendValues outputValues := by
  rw [checkValueBalance_iff]
  constructor
  · intro hexact k hk
    constructor
    · intro happart
      have heq := hexact.mp (by omega)
      omega
    · intro happart
      have heq := hexact.mp (by omega)
      omega
  · intro hwrap
    constructor
    · intro hmod
      by_contra hne
      rcases Nat.lt_or_gt_of_ne hne with hlt | hgt
      · have happart := (hwrap ((totalValue outputValues + fee.toNat - totalValue spendValues) /
          2 ^ 64) (by omega)).2
        omega
      · have happart := (hwrap ((totalValue spendValues - (totalValue outputValues + fee.toNat)) /
          2 ^ 64) (by omega)).1
        omega
    · intro heq
      rw [heq]

end

theorem inflation_balances :
    ¬ ∀ (spendCvs outputCvs : List Bytes32) (fee : UInt64) (spendValues outputValues : List UInt64),
      checkValueBalance spendCvs outputCvs fee spendValues outputValues = true ↔
        totalValue spendValues = totalValue outputValues + fee.toNat := by
  intro h
  have hbalance := (h [] [] 1 [1] [0x8000000000000000, 0x8000000000000000]).mp (by decide +kernel)
  exact absurd hbalance (by decide +kernel)

/-! ## Note commitments -/

namespace Note

def exchanged (note : Note) : Note := { note with rcm := note.pkD, pkD := note.rcm }

def commitmentInput (note : Note) : Bytes :=
  "NoirNet_note_cm_v1".toUTF8.toList ++ putU64 note.value ++ note.rcm.toList ++
    note.rho.toList ++ note.pkD.toList ++ note.diversifier.toList

@[simp] theorem exchanged_exchanged (note : Note) : note.exchanged.exchanged = note := rfl

theorem exchanged_eq_self_iff {note : Note} : note.exchanged = note ↔ note.pkD = note.rcm := by
  constructor
  · intro h
    exact congrArg Note.rcm h
  · intro h
    cases note
    simp only [exchanged] at h ⊢
    rw [h]

theorem commitmentInput_injective : Function.Injective commitmentInput := by
  intro a b h
  simp only [commitmentInput, List.append_assoc, List.append_cancel_left_eq, putU64_append_eq_iff,
    array_append_eq_iff, Vector.toList_inj] at h
  cases a
  cases b
  simp_all

section

variable [Blake3]

def noteCommitment (note : Note) : Hash32 :=
  NoirNet.noteCommitment note.value note.pkD note.rho note.rcm note.diversifier

def Opens (note : Note) (cm : Hash32) : Prop := note.noteCommitment = cm ∨ note.commitment = cm

theorem noteCommitment_eq (note : Note) : note.noteCommitment = note.exchanged.commitment := rfl

theorem opens_iff {note : Note} {cm : Hash32} :
    note.Opens cm ↔ ∃ m, (m = note ∨ m = note.exchanged) ∧ m.commitment = cm := by
  rw [Opens, noteCommitment_eq]
  constructor
  · intro h
    rcases h with h | h
    · exact ⟨note.exchanged, .inr rfl, h⟩
    · exact ⟨note, .inl rfl, h⟩
  · rintro ⟨m, rfl | rfl, h⟩
    · exact .inr h
    · exact .inl h

def committed (a b : Note) : Set Bytes :=
  {bytes | bytes ∈ [a, a.exchanged, b, b.exchanged].map commitmentInput}

variable {a b : Note} (hfree : Blake3.CollisionFree (committed a b))

include hfree in
theorem eq_of_commitment_eq {m m' : Note} (hm : m ∈ [a, a.exchanged, b, b.exchanged])
    (hm' : m' ∈ [a, a.exchanged, b, b.exchanged]) (h : m.commitment = m'.commitment) : m = m' :=
  commitmentInput_injective
    (hfree (List.mem_map_of_mem hm) (List.mem_map_of_mem hm') h)

include hfree in
theorem noteCommitment_eq_commitment_iff {note : Note}
    (hnote : note ∈ [a, a.exchanged, b, b.exchanged])
    (hexchanged : note.exchanged ∈ [a, a.exchanged, b, b.exchanged]) :
    note.noteCommitment = note.commitment ↔ note.pkD = note.rcm := by
  rw [noteCommitment_eq, ← exchanged_eq_self_iff]
  constructor
  · intro h
    exact eq_of_commitment_eq hfree hexchanged hnote h
  · intro h
    rw [h]

include hfree in
/-- Two different notes to which one commitment opens are each other with `pk_d` and
`rcm` exchanged. -/
theorem opens_both_iff :
    (∃ cm, a.Opens cm ∧ b.Opens cm) ↔ b = a ∨ b = a.exchanged := by
  constructor
  · rintro ⟨cm, ha, hb⟩
    obtain ⟨m, hm, hcm⟩ := opens_iff.mp ha
    obtain ⟨m', hm', hcm'⟩ := opens_iff.mp hb
    have heq : m = m' := by
      apply eq_of_commitment_eq hfree _ _ (hcm.trans hcm'.symm)
      · rcases hm with rfl | rfl <;> simp
      · rcases hm' with rfl | rfl <;> simp
    rcases hm with rfl | rfl <;> rcases hm' with rfl | h
    · exact .inl heq.symm
    · exact .inr (by rw [heq, h, exchanged_exchanged])
    · exact .inr heq.symm
    · have hexchanged : b.exchanged = a.exchanged := by rw [← h, heq]
      exact .inl (congrArg exchanged hexchanged)
  · intro h
    rcases h with rfl | rfl
    · exact ⟨_, .inr rfl, .inr rfl⟩
    · exact ⟨_, .inl rfl, .inr rfl⟩

def Binding (a b : Note) : Prop := ∀ cm, a.Opens cm → b.Opens cm → a = b

include hfree in
theorem binding_iff : Binding a b ↔ (b = a.exchanged → a.pkD = a.rcm) := by
  have hboth : Binding a b ↔ ((∃ cm, a.Opens cm ∧ b.Opens cm) → a = b) := by
    constructor
    · rintro h ⟨cm, ha, hb⟩
      exact h cm ha hb
    · intro h cm ha hb
      exact h ⟨cm, ha, hb⟩
  rw [hboth, opens_both_iff hfree, ← exchanged_eq_self_iff]
  constructor
  · intro h hb
    rw [← hb, ← h (.inr hb)]
  · intro h hb
    rcases hb with hb | hb
    · exact hb.symm
    · rw [hb, h hb]

include hfree in
/-- Either function alone binds.  They agree, and bind together, exactly on notes
whose `pk_d` and `rcm` are the same bytes. -/
theorem commitments_agree_iff :
    (a.commitment = b.commitment → a = b) ∧ (a.noteCommitment = b.noteCommitment → a = b) ∧
      (Binding a b ↔ (b = a.exchanged → a.pkD = a.rcm)) ∧
      (((∀ note ∈ [a, b], note.noteCommitment = note.commitment) ∧ Binding a b) ↔
        ∀ note ∈ [a, b], note.pkD = note.rcm) := by
  have hagree (note : Note) (hnote : note ∈ [a, b]) :
      note.noteCommitment = note.commitment ↔ note.pkD = note.rcm := by
    apply noteCommitment_eq_commitment_iff hfree
    · simp only [List.mem_cons] at hnote ⊢
      tauto
    · simp only [List.mem_cons, List.not_mem_nil, or_false] at hnote
      rcases hnote with rfl | rfl <;> simp
  refine ⟨eq_of_commitment_eq hfree (by simp) (by simp), ?_, binding_iff hfree, ?_⟩
  · intro h
    have hexchanged : a.exchanged = b.exchanged :=
      eq_of_commitment_eq hfree (by simp) (by simp) h
    exact congrArg exchanged hexchanged
  · constructor
    · rintro ⟨hnotes, -⟩ note hnote
      exact (hagree note hnote).mp (hnotes note hnote)
    · intro hnotes
      constructor
      · intro note hnote
        exact (hagree note hnote).mpr (hnotes note hnote)
      · exact (binding_iff hfree).mpr fun _ => hnotes a (by simp)

end

section

attribute [local instance] Blake3.front

def paidNote : Note where
  value := 5
  rcm := fill 32 3
  rho := fill 32 4
  pkD := fill 32 1
  diversifier := fill 11 0

theorem note_commitments_differ :
    Blake3.CollisionFree (committed paidNote paidNote.exchanged) ∧
      paidNote.noteCommitment ≠ paidNote.commitment ∧
      ¬ Binding paidNote paidNote.exchanged := by
  have hfree : Blake3.CollisionFree (committed paidNote paidNote.exchanged) :=
    Blake3.collisionFree_of_nodup (by decide +kernel)
  refine ⟨hfree, by decide +kernel, ?_⟩
  rw [binding_iff hfree]
  intro h
  exact absurd (h rfl) (by decide +kernel)

theorem paid_commitments_agree_iff :
    Blake3.CollisionFree (committed paidNote { paidNote with value := 6 }) ∧
      (Binding paidNote { paidNote with value := 6 } ↔
        ({ paidNote with value := 6 } = paidNote.exchanged → paidNote.pkD = paidNote.rcm)) := by
  have hfree : Blake3.CollisionFree (committed paidNote { paidNote with value := 6 }) :=
    Blake3.collisionFree_of_nodup (by decide +kernel)
  exact ⟨hfree, (commitments_agree_iff hfree).2.2.1⟩

end

end Note

end NoirNet
