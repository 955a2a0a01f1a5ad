import NoirNet.Lib.Machine
import NoirNet.Validator

/-!
# Slashing

`noirnet_consensus::slashing`.
-/

namespace NoirNet

open Lib

/-! ## Saturating arithmetic -/

namespace U128

def MAX : U128 := .allOnes 128

def saturatingAdd (a b : U128) : U128 := .ofNat 128 (min (a.toNat + b.toNat) MAX.toNat)

def saturatingMul (a b : U128) : U128 := .ofNat 128 (min (a.toNat * b.toNat) MAX.toNat)

theorem toNat_le_max (a : U128) : a.toNat ≤ MAX.toNat := Nat.le_of_lt_succ a.isLt

theorem toNat_ofNat_min (n : Nat) :
    (BitVec.ofNat 128 (min n MAX.toNat)).toNat = min n MAX.toNat := by
  rw [BitVec.toNat_ofNat]
  apply Nat.mod_eq_of_lt
  exact lt_of_le_of_lt (min_le_right _ _) MAX.isLt

@[simp] theorem toNat_saturatingAdd (a b : U128) :
    (saturatingAdd a b).toNat = min (a.toNat + b.toNat) MAX.toNat := toNat_ofNat_min _

@[simp] theorem toNat_saturatingMul (a b : U128) :
    (saturatingMul a b).toNat = min (a.toNat * b.toNat) MAX.toNat := toNat_ofNat_min _

end U128

/-! ## Evidence of a double signature -/

inductive ConsensusError where
  | notLeader
  | invalidProposal (reason : String)
  | invalidAggregateProof
  | insufficientPrecommits
  | doubleSign
  deriving DecidableEq

structure SlashOutcome where
  validatorId : ValidatorId
  amount : U128
  tombstoned : Bool
  deriving DecidableEq

def calculateSlash (stake : U128) (slashBps : UInt64) : U128 :=
  U128.saturatingMul stake (.ofNat 128 slashBps.toNat) / 10000

/-- `apply_double_sign_evidence`: the validator behind the call, and the result. -/
def applyDoubleSignEvidence (validator : ValidatorState) (evidence : DoubleSignEvidence)
    (params : SlashParams) : ValidatorState × Except ConsensusError SlashOutcome :=
  if validator.registration.validatorId ≠ evidence.validatorId then
    (validator, .error (.invalidProposal "evidence validator does not match validator state"))
  else if evidence.blockHash1 = evidence.blockHash2 then
    (validator, .error (.invalidProposal
      "double-sign evidence must contain two different block hashes"))
  else
    let amount := calculateSlash validator.totalStake params.doubleSignBps
    ({ validator with
        totalSlashed := U128.saturatingAdd validator.totalSlashed amount
        status := .tombstoned },
      .ok { validatorId := evidence.validatorId, amount, tombstoned := true })

/-- The two checks: the evidence is about the validator and names two hashes. -/
def ValidatorState.Convicts (validator : ValidatorState) (evidence : DoubleSignEvidence) : Prop :=
  validator.registration.validatorId = evidence.validatorId ∧
    evidence.blockHash1 ≠ evidence.blockHash2

instance (validator : ValidatorState) (evidence : DoubleSignEvidence) :
    Decidable (validator.Convicts evidence) :=
  inferInstanceAs (Decidable (_ ∧ _))

def ValidatorState.punished (validator : ValidatorState) (amount : U128) : ValidatorState :=
  { validator with
    totalSlashed := U128.saturatingAdd validator.totalSlashed amount
    status := .tombstoned }

theorem ValidatorState.punished_eq_self_iff {validator : ValidatorState} {amount : U128}
    (h : validator.status = .tombstoned) :
    validator.punished amount = validator ↔
      (validator.punished amount).totalSlashed = validator.totalSlashed := by
  cases validator
  cases h
  simp [punished]

variable {validator : ValidatorState} {evidence : DoubleSignEvidence} (params : SlashParams)

theorem applyDoubleSignEvidence_of_convicts (h : validator.Convicts evidence) :
    applyDoubleSignEvidence validator evidence params =
      (validator.punished (calculateSlash validator.totalStake params.doubleSignBps),
        .ok ⟨evidence.validatorId, calculateSlash validator.totalStake params.doubleSignBps,
          true⟩) := by
  rw [applyDoubleSignEvidence, if_neg (not_not.mpr h.1), if_neg h.2]
  rfl

theorem applyDoubleSignEvidence_of_not_convicts (h : ¬ validator.Convicts evidence) :
    ∃ reason, applyDoubleSignEvidence validator evidence params =
      (validator, .error (.invalidProposal reason)) := by
  rw [applyDoubleSignEvidence]
  by_cases hid : validator.registration.validatorId = evidence.validatorId
  · have hhash : evidence.blockHash1 = evidence.blockHash2 := by
      by_contra hne
      exact h ⟨hid, hne⟩
    rw [if_neg (not_not.mpr hid), if_pos hhash]
    exact ⟨_, rfl⟩
  · rw [if_pos hid]
    exact ⟨_, rfl⟩

/-- One piece of evidence after the other; what is applied is emitted. -/
def slashingMachine (params : SlashParams) :
    Machine ValidatorState DoubleSignEvidence DoubleSignEvidence where
  step validator evidence :=
    match applyDoubleSignEvidence validator evidence params with
    | (validator, .ok _) => (validator, [evidence])
    | (validator, .error _) => (validator, [])

theorem slashingMachine_step_of_convicts (h : validator.Convicts evidence) :
    (slashingMachine params).step validator evidence =
      (validator.punished (calculateSlash validator.totalStake params.doubleSignBps),
        [evidence]) := by
  simp only [slashingMachine, applyDoubleSignEvidence_of_convicts params h]

theorem slashingMachine_step_of_not_convicts (h : ¬ validator.Convicts evidence) :
    (slashingMachine params).step validator evidence = (validator, []) := by
  obtain ⟨reason, hreason⟩ := applyDoubleSignEvidence_of_not_convicts params h
  simp only [slashingMachine, hreason]

end NoirNet
