import NoirNet.Consensus.Concrete
import NoirNet.Consensus.Slashing

/-!
# Who is slashed, and how often

The evidence check compares a validator id and two hashes; it reads neither the
height nor the signatures, and what it has punished it does not remember.

* `spared_iff`: which evidence is turned away;
* `just_iff`: which sequences of evidence stay within the stake and punish no
  piece twice.
-/

namespace NoirNet

open Lib

/-! ## One piece of evidence -/

def Spared (validator : ValidatorState) (evidence : DoubleSignEvidence) (params : SlashParams) :
    Prop :=
  (∃ e, (applyDoubleSignEvidence validator evidence params).2 = .error e) ∧
    (applyDoubleSignEvidence validator evidence params).1 = validator

theorem spared_iff_not_convicts {validator : ValidatorState} {evidence : DoubleSignEvidence}
    (params : SlashParams) : Spared validator evidence params ↔ ¬ validator.Convicts evidence := by
  by_cases h : validator.Convicts evidence
  · rw [Spared, applyDoubleSignEvidence_of_convicts params h]
    simp [h]
  · obtain ⟨reason, hreason⟩ := applyDoubleSignEvidence_of_not_convicts params h
    rw [Spared, hreason]
    simp [h]

/-- Whatever a validator has signed, evidence is turned away exactly when it names another
validator or one hash twice. -/
theorem spared_iff (validator : ValidatorState) (evidence : DoubleSignEvidence)
    (params : SlashParams) :
    Spared validator evidence params ↔
      evidence.validatorId ≠ validator.registration.validatorId ∨
        evidence.blockHash1 = evidence.blockHash2 := by
  rw [spared_iff_not_convicts, ValidatorState.Convicts, not_and_or, not_not]
  exact or_congr_left (not_congr eq_comm)

def NeverDoubleSigns (votes : List Vote) : Prop :=
  ∀ v ∈ votes, ∀ v' ∈ votes, v.height = v'.height → v.blockHash = v'.blockHash

def honestVotes : List Vote :=
  [Vote.plain 1 0 (fill 32 10) .precommit,
    { Vote.plain 1 0 (fill 32 11) .precommit with height := 2 }]

/-- Its two votes, passed off as votes at one height. -/
def recombined : DoubleSignEvidence where
  validatorId := fill 48 1
  height := 1
  blockHash1 := fill 32 10
  blockHash2 := fill 32 11
  sig1 := (Vote.plain 1 0 (fill 32 10) .precommit).signature.toList
  sig2 := (Vote.plain 1 0 (fill 32 11) .precommit).signature.toList

theorem honest_validator_slashed :
    NeverDoubleSigns honestVotes ∧
      (applyDoubleSignEvidence (ValidatorState.blank 1) recombined {}).1.status = .tombstoned ∧
      ¬ ∀ (votes : List Vote) (validator : ValidatorState) (evidence : DoubleSignEvidence)
        (params : SlashParams),
        (∀ v ∈ votes, v.validatorId = validator.registration.blsPubkey.take 32) →
        NeverDoubleSigns votes → Spared validator evidence params := by
  have hhonest : NeverDoubleSigns honestVotes := by
    unfold NeverDoubleSigns
    decide
  refine ⟨hhonest, by decide, ?_⟩
  intro hall
  have hspared := hall honestVotes (ValidatorState.blank 1) recombined {} (by decide) hhonest
  exact absurd ((spared_iff_not_convicts {}).mp hspared) (by decide)

/-! ## Sequences of evidence -/

/-- Behind the step `total_slashed` is within the stake, and the step changes nothing if
its evidence has been applied before. -/
def Just (params : SlashParams) (s : ValidatorState × List DoubleSignEvidence)
    (evidence : DoubleSignEvidence) : Prop :=
  let validator := ((slashingMachine params).step s.1 evidence).1
  validator.totalSlashed ≤ validator.totalStake ∧ (evidence ∈ s.2 → validator = s.1)

section

variable (params : SlashParams) (start : ValidatorState)

def penalty : Nat := (calculateSlash start.totalStake params.doubleSignBps).toNat

def convictions (es : List DoubleSignEvidence) : List DoubleSignEvidence :=
  es.filter fun e => start.Convicts e

theorem convictions_concat (es : List DoubleSignEvidence) (e : DoubleSignEvidence) :
    convictions start (es ++ [e]) =
      if start.Convicts e then convictions start es ++ [e] else convictions start es := by
  rw [convictions, List.filter_append, List.filter_singleton]
  by_cases h : start.Convicts e
  · simp [h, convictions]
  · simp [h, convictions]

structure Punished (s : ValidatorState × List DoubleSignEvidence) : Prop where
  registration : s.1.registration = start.registration
  stake : s.1.totalStake = start.totalStake
  slashed : s.1.totalSlashed.toNat = min (s.2.length * penalty params start) U128.MAX.toNat
  status : s.2 ≠ [] → s.1.status = .tombstoned

variable {params start}

theorem Punished.convicts_iff {s : ValidatorState × List DoubleSignEvidence}
    (h : Punished params start s) (evidence : DoubleSignEvidence) :
    s.1.Convicts evidence ↔ start.Convicts evidence := by
  rw [ValidatorState.Convicts, ValidatorState.Convicts, h.registration]

theorem Punished.slashed_punished {s : ValidatorState × List DoubleSignEvidence}
    (h : Punished params start s) :
    (s.1.punished (calculateSlash s.1.totalStake params.doubleSignBps)).totalSlashed.toNat =
      min ((s.2.length + 1) * penalty params start) U128.MAX.toNat := by
  have hpenalty : (calculateSlash s.1.totalStake params.doubleSignBps).toNat =
      penalty params start := by rw [h.stake, penalty]
  have hsum : (s.2.length + 1) * penalty params start =
      s.2.length * penalty params start + penalty params start := Nat.succ_mul _ _
  rw [ValidatorState.punished, U128.toNat_saturatingAdd, h.slashed, hpenalty, hsum]
  omega

variable (params) in
theorem punished_run (h : start.totalSlashed = 0) (es : List DoubleSignEvidence) :
    Punished params start ((slashingMachine params).recorded.final (start, []) es) ∧
      ((slashingMachine params).recorded.final (start, []) es).2 = convictions start es := by
  induction es using List.reverseRecOn with
  | nil => exact ⟨⟨rfl, rfl, by simp [h], nofun⟩, rfl⟩
  | append_singleton es e ih =>
      obtain ⟨hpunished, happlied⟩ := ih
      rw [Machine.final_append, convictions_concat]
      generalize (slashingMachine params).recorded.final (start, []) es = s at hpunished happlied ⊢
      by_cases hconvicts : start.Convicts e
      · have hstep := slashingMachine_step_of_convicts params
          ((hpunished.convicts_iff e).mpr hconvicts)
        simp only [Machine.final, Machine.recorded, hstep]
        refine ⟨⟨hpunished.registration, hpunished.stake, ?_, fun _ => rfl⟩, ?_⟩
        · rw [List.length_append]
          exact hpunished.slashed_punished
        · rw [happlied, if_pos hconvicts]
      · have hstep := slashingMachine_step_of_not_convicts params
          (mt (hpunished.convicts_iff e).mp hconvicts)
        simp only [Machine.final, Machine.recorded, hstep, List.append_nil]
        rw [if_neg hconvicts]
        exact ⟨hpunished, happlied⟩

/-- A repeated conviction changes nothing if it costs nothing, or if the total is
saturated. -/
theorem Punished.just_iff {s : ValidatorState × List DoubleSignEvidence}
    (h : Punished params start s) {evidence : DoubleSignEvidence}
    (hconvicts : start.Convicts evidence) :
    Just params s evidence ↔
      min ((s.2.length + 1) * penalty params start) U128.MAX.toNat ≤ start.totalStake.toNat ∧
        (evidence ∈ s.2 → penalty params start = 0 ∨
          U128.MAX.toNat ≤ s.2.length * penalty params start) := by
  have hslashed := h.slashed_punished
  have hsum : (s.2.length + 1) * penalty params start =
      s.2.length * penalty params start + penalty params start := Nat.succ_mul _ _
  have hstake : (s.1.punished (calculateSlash s.1.totalStake params.doubleSignBps)).totalStake =
      start.totalStake := h.stake
  have hsame (hmem : evidence ∈ s.2) :
      s.1.punished (calculateSlash s.1.totalStake params.doubleSignBps) = s.1 ↔
        penalty params start = 0 ∨ U128.MAX.toNat ≤ s.2.length * penalty params start := by
    have hstatus := h.status (List.ne_nil_of_mem hmem)
    have hold := h.slashed
    rw [ValidatorState.punished_eq_self_iff hstatus, ← BitVec.toNat_inj, hslashed, hold, hsum]
    omega
  rw [Just, slashingMachine_step_of_convicts params ((h.convicts_iff evidence).mpr hconvicts)]
  dsimp only
  rw [BitVec.le_def, hslashed, hstake]
  exact and_congr_right fun _ => forall_congr' hsame

/-! ### What a run can afford -/

def Affordable (cost stake : Nat) (applied : List DoubleSignEvidence) : Prop :=
  ∀ k (hk : k < applied.length), min ((k + 1) * cost) U128.MAX.toNat ≤ stake ∧
    (applied[k] ∈ applied.take k → cost = 0 ∨ U128.MAX.toNat ≤ k * cost)

theorem affordable_concat_iff {cost stake : Nat} {applied : List DoubleSignEvidence}
    {e : DoubleSignEvidence} :
    Affordable cost stake (applied ++ [e]) ↔ Affordable cost stake applied ∧
      min ((applied.length + 1) * cost) U128.MAX.toNat ≤ stake ∧
        (e ∈ applied → cost = 0 ∨ U128.MAX.toNat ≤ applied.length * cost) := by
  constructor
  · intro h
    constructor
    · intro k hk
      have hk' := h k (by rw [List.length_append]; omega)
      rwa [List.getElem_append_left hk, List.take_append_of_le_length (by omega)] at hk'
    · have hlast := h applied.length (by simp)
      rwa [List.getElem_concat_length rfl, List.take_left'  rfl] at hlast
  · rintro ⟨hfront, hlast⟩ k hk
    by_cases hlt : k < applied.length
    · rw [List.getElem_append_left hlt, List.take_append_of_le_length (by omega)]
      exact hfront k hlt
    · have hlen : k = applied.length := by
        rw [List.length_append, List.length_singleton] at hk
        omega
      subst hlen
      rwa [List.getElem_concat_length rfl, List.take_left' rfl]

theorem admissible_just_iff (h : start.totalSlashed = 0) (es : List DoubleSignEvidence) :
    (slashingMachine params).recorded.Admissible (Just params) (start, []) es ↔
      Affordable (penalty params start) start.totalStake.toNat (convictions start es) := by
  induction es using List.reverseRecOn with
  | nil => exact ⟨fun _ => nofun, fun _ => trivial⟩
  | append_singleton es e ih =>
      obtain ⟨hpunished, happlied⟩ := punished_run params h es
      rw [Machine.admissible_append, ih, convictions_concat]
      generalize (slashingMachine params).recorded.final (start, []) es = s at hpunished happlied ⊢
      by_cases hconvicts : start.Convicts e
      · rw [if_pos hconvicts, affordable_concat_iff, ← happlied, ← hpunished.just_iff hconvicts]
        simp [Machine.Admissible]
      · have hstep := slashingMachine_step_of_not_convicts params
          (mt (hpunished.convicts_iff e).mp hconvicts)
        rw [if_neg hconvicts]
        simp only [Machine.Admissible, Just, hstep]
        rw [and_iff_left_iff_imp]
        intro haffordable
        refine ⟨⟨?_, fun _ => trivial⟩, trivial⟩
        -- the total is that of the last conviction
        rw [BitVec.le_def, hpunished.slashed, hpunished.stake, happlied]
        cases hlast : (convictions start es).length with
        | zero => simp
        | succ k => exact (haffordable k (by omega)).1

theorem nodup_iff_notMem_take {α : Type} {l : List α} :
    l.Nodup ↔ ∀ k (hk : k < l.length), l[k] ∉ l.take k := by
  rw [List.Nodup, List.pairwise_iff_getElem]
  constructor
  · intro h k hk hmem
    obtain ⟨i, hi, heq⟩ := List.mem_take_iff_getElem.mp hmem
    exact h i k (by omega) hk (by omega) heq
  · intro h i j hi hj hlt heq
    exact h j hj (List.mem_take_iff_getElem.mpr ⟨i, by omega, heq⟩)

variable (params) in
/-- With the largest stake there is, 10000 convictions cost less than it and 10001 cost
it all. -/
theorem penalty_of_max (h : start.totalStake = U128.MAX) :
    penalty params start = 0 ∨ 10000 * penalty params start < U128.MAX.toNat ∧
      U128.MAX.toNat ≤ 10001 * penalty params start := by
  have hbps : (BitVec.ofNat 128 params.doubleSignBps.toNat).toNat = params.doubleSignBps.toNat :=
    Nat.mod_eq_of_lt (lt_trans params.doubleSignBps.toNat_lt (by decide))
  have hcost : penalty params start =
      min (U128.MAX.toNat * params.doubleSignBps.toNat) U128.MAX.toNat / 10000 := by
    rw [penalty, calculateSlash, BitVec.toNat_udiv, U128.toNat_saturatingMul, h, hbps]
    rfl
  have hmax : U128.MAX.toNat = 340282366920938463463374607431768211455 := by decide
  rw [hcost, hmax]
  cases params.doubleSignBps.toNat with
  | zero => simp
  | succ bps => omega

section

variable {applied : List DoubleSignEvidence}
  (h : Affordable (penalty params start) start.totalStake.toNat applied)
  (hcosts : penalty params start ≠ 0)

include h hcosts

/-- A second conviction for one piece of evidence must find the total at its end. -/
theorem Affordable.max_le {k : Nat} (hk : k < applied.length) (hmem : applied[k] ∈ applied.take k) :
    U128.MAX.toNat ≤ k * penalty params start :=
  ((h k hk).2 hmem).resolve_left hcosts

theorem Affordable.nodup (htotal : applied.length * penalty params start ≤ start.totalStake.toNat) :
    applied.Nodup := by
  rw [nodup_iff_notMem_take]
  intro k hk hmem
  have hbound := U128.toNat_le_max start.totalStake
  have hmore : (k + 1) * penalty params start ≤ applied.length * penalty params start :=
    Nat.mul_le_mul_right _ hk
  have hsaturated := h.max_le hcosts hk hmem
  rw [Nat.succ_mul] at hmore
  omega

omit hcosts in
theorem Affordable.totalStake_eq
    (htotal : ¬ applied.length * penalty params start ≤ start.totalStake.toNat) :
    start.totalStake = U128.MAX := by
  have hbound := U128.toNat_le_max start.totalStake
  have hpos : 0 < applied.length := by
    by_contra hzero
    rw [Nat.eq_zero_of_not_pos hzero, Nat.zero_mul] at htotal
    exact htotal (Nat.zero_le _)
  have hlast := (h (applied.length - 1) (by omega)).1
  rw [Nat.sub_add_cancel hpos] at hlast
  exact BitVec.eq_of_toNat_eq (by omega)

theorem Affordable.nodup_take (hstake : start.totalStake = U128.MAX) :
    (applied.take 10001).Nodup := by
  rw [nodup_iff_notMem_take]
  intro k hk hmem
  rw [List.length_take] at hk
  rw [List.getElem_take, List.take_take, min_eq_left (by omega)] at hmem
  have hmany : k * penalty params start ≤ 10000 * penalty params start :=
    Nat.mul_le_mul_right _ (by omega)
  have hsaturated := h.max_le hcosts (by omega) hmem
  obtain hzero | ⟨hbelow, -⟩ := penalty_of_max params hstake
  · exact hcosts hzero
  · omega

end

theorem affordable_of_nodup {applied : List DoubleSignEvidence} (hnodup : applied.Nodup)
    (htotal : applied.length * penalty params start ≤ start.totalStake.toNat) :
    Affordable (penalty params start) start.totalStake.toNat applied := by
  intro k hk
  have hmore : (k + 1) * penalty params start ≤ applied.length * penalty params start :=
    Nat.mul_le_mul_right _ hk
  refine ⟨by omega, ?_⟩
  intro hmem
  exact absurd hmem (nodup_iff_notMem_take.mp hnodup k hk)

theorem affordable_of_max {applied : List DoubleSignEvidence}
    (hstake : start.totalStake = U128.MAX) (hnodup : (applied.take 10001).Nodup) :
    Affordable (penalty params start) start.totalStake.toNat applied := by
  intro k hk
  rw [hstake]
  refine ⟨min_le_right _ _, ?_⟩
  intro hmem
  obtain hzero | ⟨-, habove⟩ := penalty_of_max params hstake
  · exact .inl hzero
  right
  by_contra hfew
  have hsmall : k < 10001 := by
    by_contra hlarge
    have hmany : 10001 * penalty params start ≤ k * penalty params start :=
      Nat.mul_le_mul_right _ (Nat.not_lt.mp hlarge)
    omega
  have hfront := nodup_iff_notMem_take.mp hnodup k (by rw [List.length_take]; omega)
  rw [List.getElem_take, List.take_take, min_eq_left (by omega)] at hfront
  exact hfront hmem

theorem affordable_iff (applied : List DoubleSignEvidence) :
    Affordable (penalty params start) start.totalStake.toNat applied ↔
      penalty params start = 0 ∨
        applied.Nodup ∧ applied.length * penalty params start ≤ start.totalStake.toNat ∨
        start.totalStake = U128.MAX ∧ (applied.take 10001).Nodup := by
  constructor
  · intro h
    by_cases hfree : penalty params start = 0
    · exact .inl hfree
    right
    by_cases htotal : applied.length * penalty params start ≤ start.totalStake.toNat
    · exact .inl ⟨h.nodup hfree htotal, htotal⟩
    · have hstake := h.totalStake_eq htotal
      exact .inr ⟨hstake, h.nodup_take hfree hstake⟩
  · rintro (hfree | ⟨hnodup, htotal⟩ | ⟨hstake, hnodup⟩)
    · intro k hk
      simp [hfree]
    · exact affordable_of_nodup hnodup htotal
    · exact affordable_of_max hstake hnodup

end

/-- A validator that has not been slashed stays within its stake, and is punished once for
each piece of evidence, exactly when a conviction costs nothing, or the convicting pieces
are pairwise different and together cost at most the stake, or the stake is the largest
there is and the first 10001 of them are pairwise different. -/
theorem slashing_just_iff (start : ValidatorState) (h : start.totalSlashed = 0)
    (params : SlashParams) (es : List DoubleSignEvidence) :
    (slashingMachine params).recorded.Admissible (Just params) (start, []) es ↔
      penalty params start = 0 ∨
        (convictions start es).Nodup ∧
          (convictions start es).length * penalty params start ≤ start.totalStake.toNat ∨
        start.totalStake = U128.MAX ∧ ((convictions start es).take 10001).Nodup :=
  (admissible_just_iff h es).trans (affordable_iff _)

def staked : ValidatorState := { ValidatorState.blank 1 with ownStake := 10000 }

theorem slashed_over_stake :
    ((slashingMachine {}).final staked (List.replicate 21 recombined)).totalSlashed = 10500 ∧
      ¬ (slashingMachine {}).recorded.Admissible (Just {}) (staked, [])
        (List.replicate 21 recombined) := by
  constructor
  · decide +kernel
  · rw [admissible_just_iff rfl, affordable_iff]
    decide +kernel

theorem staked_just :
    (slashingMachine {}).recorded.Admissible (Just {}) (staked, [])
        [recombined, { recombined with blockHash2 := fill 32 12 }] ∧
      staked.totalSlashed = 0 := by
  constructor
  · rw [slashing_just_iff staked rfl]
    right
    left
    decide +kernel
  · rfl

end NoirNet
