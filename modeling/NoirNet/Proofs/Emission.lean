import Mathlib.Tactic.NormNum
import NoirNet.Ledger

/-!
# Emission and the maximum supply

The reward halves with the height, down to the tail emission.  The first era
alone emits 76 times `MAX_SUPPLY`, which is reached within its first 525000
blocks; the tail is reached eleven halvings later.
-/

namespace NoirNet

/-! ## The reward of a height -/

theorem toNat_computeBlockReward {height : UInt64} (h : height ≠ 0) :
    (computeBlockReward height).toNat =
      max (40000000000 / 2 ^ (height.toNat / 40320000)) 10000000 := by
  have hera : (height / HALVING_INTERVAL).toNat = height.toNat / 40320000 := UInt64.toNat_div _ _
  rw [computeBlockReward, if_neg h]
  by_cases hmany : height / HALVING_INTERVAL ≥ 64
  · have hlate : 64 ≤ height.toNat / 40320000 := hera ▸ UInt64.le_iff_toNat_le.mp hmany
    have hpow : 2 ^ 64 ≤ 2 ^ (height.toNat / 40320000) := Nat.pow_le_pow_right (by decide) hlate
    have hzero : 40000000000 / 2 ^ (height.toNat / 40320000) = 0 :=
      Nat.div_eq_of_lt (Nat.lt_of_lt_of_le (by decide) hpow)
    rw [if_pos hmany, hzero]
    rfl
  · have hshift : (INITIAL_BLOCK_REWARD >>> (height / HALVING_INTERVAL).toNat).toNat =
        40000000000 / 2 ^ (height.toNat / 40320000) := by
      rw [BitVec.toNat_ushiftRight, Nat.shiftRight_eq_div_pow, hera]
      rfl
    have htail : TAIL_EMISSION.toNat = 10000000 := rfl
    rw [if_neg hmany]
    by_cases hlow : INITIAL_BLOCK_REWARD >>> (height / HALVING_INTERVAL).toNat < TAIL_EMISSION
    · rw [if_pos hlow, htail]
      rw [BitVec.lt_def, hshift, htail] at hlow
      omega
    · rw [if_neg hlow, hshift]
      rw [BitVec.lt_def, hshift, htail] at hlow
      omega

theorem tail_lt_computeBlockReward_iff {height : UInt64} :
    TAIL_EMISSION < computeBlockReward height ↔ height ≠ 0 ∧ height.toNat < 483840000 := by
  by_cases h : height = 0
  · subst h
    decide
  · have htail : TAIL_EMISSION.toNat = 10000000 := rfl
    rw [BitVec.lt_def, toNat_computeBlockReward h, htail, lt_max_iff]
    simp only [lt_irrefl, or_false, ne_eq, h, not_false_eq_true, true_and]
    have hera : height.toNat < 483840000 ↔ height.toNat / 40320000 < 12 := by omega
    rw [hera]
    constructor
    · intro hreward
      by_contra hlate
      have hpow : 2 ^ 12 ≤ 2 ^ (height.toNat / 40320000) :=
        Nat.pow_le_pow_right (by decide) (Nat.not_lt.mp hlate)
      have hsmall := Nat.div_le_div_left (a := 40000000000) hpow (by decide)
      omega
    · intro hearly
      have hpow : 2 ^ (height.toNat / 40320000) ≤ 2 ^ 11 :=
        Nat.pow_le_pow_right (by decide) (by omega)
      have hlarge := Nat.div_le_div_left (a := 40000000000) hpow (Nat.two_pow_pos _)
      omega

/-! ## The sum of the rewards -/

/-- The rewards of the heights from 1 on, added up. -/
def cumulativeEmission : Nat → Nat
  | 0 => 0
  | n + 1 => cumulativeEmission n + (computeBlockReward (.ofNat (n + 1))).toNat

theorem cumulativeEmission_mono : Monotone cumulativeEmission := by
  apply monotone_nat_of_le_succ
  intro n
  exact Nat.le_add_right _ _

theorem cumulativeEmission_of_lt {n : Nat} (h : n < 40320000) :
    cumulativeEmission n = n * 40000000000 := by
  induction n with
  | zero => rfl
  | succ n ih =>
      have hword : n + 1 < UInt64.size := lt_trans h (by decide)
      have htoNat : (UInt64.ofNat (n + 1)).toNat = n + 1 := UInt64.toNat_ofNat_of_lt' hword
      have hne : UInt64.ofNat (n + 1) ≠ 0 := by
        intro hzero
        rw [hzero] at htoNat
        cases htoNat
      have hfirst : (n + 1) / 40320000 = 0 := Nat.div_eq_of_lt h
      rw [cumulativeEmission, ih (by omega), toNat_computeBlockReward hne, htoNat, hfirst]
      omega

/-- The first 525000 blocks emit the maximum supply. -/
theorem cumulativeEmission_le_iff {n : Nat} :
    cumulativeEmission n ≤ MAX_SUPPLY.toNat ↔ n ≤ 525000 := by
  have hmax : MAX_SUPPLY.toNat = 21000000000000000 := rfl
  constructor
  · intro h
    by_contra hlarge
    have hmore := cumulativeEmission_mono (show 525001 ≤ n by omega)
    rw [cumulativeEmission_of_lt (by decide)] at hmore
    omega
  · intro h
    rw [cumulativeEmission_of_lt (by omega)]
    omega

/-! ## The supply -/

/-- As long as the tail is still ahead, no more than the maximum supply has been emitted. -/
def WithinSupply (height : UInt64) : Prop :=
  (∃ h, height < h ∧ TAIL_EMISSION < computeBlockReward h) →
    cumulativeEmission height.toNat ≤ MAX_SUPPLY.toNat

/-- The tail is ahead of the heights in front of the last one with a larger reward. -/
theorem tail_ahead_iff (height : UInt64) :
    (∃ h, height < h ∧ TAIL_EMISSION < computeBlockReward h) ↔ height < 483839999 := by
  simp only [tail_lt_computeBlockReward_iff, UInt64.lt_iff_toNat_lt]
  constructor
  · rintro ⟨h, hlt, -, hearly⟩
    exact lt_of_lt_of_le hlt (Nat.le_of_lt_succ hearly)
  · intro h
    exact ⟨483839999, h, by decide, by decide⟩

theorem within_supply_iff (height : UInt64) :
    WithinSupply height ↔ height ≤ 525000 ∨ 483839999 ≤ height := by
  rw [WithinSupply, tail_ahead_iff, cumulativeEmission_le_iff, UInt64.le_iff_toNat_le,
    ← UInt64.not_lt]
  constructor
  · intro h
    by_cases hahead : height < 483839999
    · exact .inl (h hahead)
    · exact .inr hahead
  · rintro (hsmall | hlate) hahead
    · exact hsmall
    · exact absurd hahead hlate

theorem supply_exceeded : ¬ WithinSupply 525001 := by
  intro h
  have hbound := h ((tail_ahead_iff 525001).mpr (by decide))
  exact absurd (cumulativeEmission_le_iff.mp hbound) (by decide)

end NoirNet
