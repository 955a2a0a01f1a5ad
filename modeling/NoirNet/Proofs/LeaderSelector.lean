import NoirNet.Consensus.Concrete
import NoirNet.Consensus.Leader
import NoirNet.Proofs.Election

/-!
# Which leader is selected

The ids order the validators in one way only, so the list they came in does not
matter; along that order each validator owns an interval of targets as long as
its stake.

* `new_perm`: one order for all lists of the same validators;
* `selectFrom_eq`: the selection, as a position;
* `selectLeader_spec`: both halves, for every entropy and round.
-/

namespace NoirNet

open Lib Lottery Wire

namespace LeaderSelector

abbrev idOf (v : ValidatorState) : ValidatorId := v.registration.validatorId

/-! ## The order -/

section

variable (validators : List ValidatorState)

theorem perm_new : (new validators).activeValidators.Perm validators := List.perm_insertionSort _ _

theorem pairwise_new :
    (new validators).activeValidators.Pairwise fun a b => (compare (idOf a) (idOf b)).isLE := by
  have : Std.Total fun a b : ValidatorState => (compare (idOf a) (idOf b)).isLE := by
    refine ⟨fun a b => ?_⟩
    have hswap : compare (idOf b) (idOf a) = (compare (idOf a) (idOf b)).swap :=
      Std.OrientedCmp.eq_swap
    rw [hswap]
    cases compare (idOf a) (idOf b) <;> simp
  have : IsTrans ValidatorState fun a b => (compare (idOf a) (idOf b)).isLE :=
    ⟨fun _ _ _ hab hbc => Std.TransCmp.isLE_trans hab hbc⟩
  exact List.pairwise_insertionSort _ _

variable {validators} (hdistinct : (validators.map idOf).Nodup)

include hdistinct

theorem new_perm {validators' : List ValidatorState} (h : validators'.Perm validators) :
    new validators' = new validators := by
  have hperm : (new validators').activeValidators.Perm (new validators).activeValidators :=
    (perm_new validators').trans (h.trans (perm_new validators).symm)
  have hlists : (new validators').activeValidators = (new validators).activeValidators := by
    refine List.Perm.eq_of_pairwise ?_ (pairwise_new validators') (pairwise_new validators) hperm
    · intro a b ha hb hab hba
      have hid : idOf a = idOf b := Std.LawfulEqCmp.compare_eq_iff_eq.mp
        (Std.OrientedCmp.isLE_antisymm hab hba)
      have ha' : a ∈ validators := (perm_new validators).mem_iff.mp (hperm.mem_iff.mp ha)
      have hb' : b ∈ validators := (perm_new validators).mem_iff.mp hb
      exact List.inj_on_of_nodup_map hdistinct ha' hb' hid
  rw [← mk.injEq] at hlists
  exact hlists

theorem pairwise_lt_new :
    (new validators).activeValidators.Pairwise fun a b => compare (idOf a) (idOf b) = .lt := by
  have hnodup : ((new validators).activeValidators.map idOf).Nodup :=
    ((perm_new validators).map idOf).nodup_iff.mpr hdistinct
  have hne := List.pairwise_map.mp hnodup
  refine ((pairwise_new validators).and hne).imp ?_
  rintro a b ⟨hle, hne⟩
  cases hcompare : compare (idOf a) (idOf b) with
  | lt => rfl
  | eq => exact absurd (Std.LawfulEqCmp.compare_eq_iff_eq.mp hcompare) hne
  | gt =>
      rw [hcompare] at hle
      cases hle

end

/-! ## The draw -/

theorem selectFrom_eq (target sum : U128) (validators : List ValidatorState) :
    selectFrom target sum validators =
      (drawFrom target sum (validators.map ValidatorState.totalStake)).bind
        fun i => (validators[i]?).map idOf := by
  induction validators generalizing sum with
  | nil => rfl
  | cons v rest ih =>
      rw [selectFrom, List.map_cons, drawFrom]
      by_cases hfirst : target < sum + v.totalStake
      · simp [hfirst]
      · simp only [gt_iff_lt, hfirst, if_false, ih]
        cases drawFrom target (sum + v.totalStake) (rest.map ValidatorState.totalStake) with
        | none => rfl
        | some i => simp

def stake (v : ValidatorState) : Nat := v.ownStake.toNat + v.delegatedStake.toNat

def stakes (validators : List ValidatorState) : List Nat := validators.map stake

section

variable {validators : List ValidatorState} (hlt : (stakes validators).sum < 2 ^ 128)

include hlt

theorem toNat_stakes :
    (validators.map ValidatorState.totalStake).map BitVec.toNat = stakes validators := by
  rw [List.map_map, stakes]
  apply List.map_congr_left
  intro v hv
  have hle := List.le_sum_of_mem (List.mem_map_of_mem (f := stake) hv)
  show (v.ownStake + v.delegatedStake).toNat = stake v
  exact BitVec.toNat_add_of_lt (lt_of_le_of_lt hle hlt)

theorem toNat_totalStake : (totalStake validators).toNat = (stakes validators).sum := by
  have hfold : totalStake validators =
      (validators.map ValidatorState.totalStake).foldl (· + ·) 0 := by
    rw [List.foldl_map]
    rfl
  rw [hfold, toNat_foldl_add, toNat_stakes hlt]
  · exact Nat.zero_add _
  · rw [toNat_stakes hlt]
    exact (Nat.zero_add _).trans_lt hlt

end

/-! ## The selection -/

def target [Blake3] (entropy : Bytes32) (round : UInt32) (total : Nat) : Nat :=
  leValue ((seed entropy round).toList.take 16) % total

section

variable [Blake3] {members : List ValidatorState} (entropy : Bytes32) (round : UInt32)

def wordTarget (entropy : Bytes32) (round : UInt32) (members : List ValidatorState) : U128 :=
  BitVec.ofNat 128 (leValue ((seed entropy round).toList.take 16)) % totalStake members

theorem selectLeader_cons (v : ValidatorState) (rest : List ValidatorState) :
    (mk (v :: rest)).selectLeader entropy round =
      if totalStake (v :: rest) = 0 then
        .ok (idOf ((v :: rest).get ⟨leValue ((seed entropy round).toList.take 4) %
          (v :: rest).length, Nat.mod_lt _ (Nat.succ_pos _)⟩))
      else .ok ((selectFrom (wordTarget entropy round (v :: rest)) 0 (v :: rest)).getD
        (idOf ((v :: rest).getLast (List.cons_ne_nil v rest)))) := by
  unfold selectLeader wordTarget
  by_cases hzero : totalStake (v :: rest) = 0
  · simp only [hzero, if_true]
  · simp only [hzero, if_false]
    cases selectFrom (BitVec.ofNat 128 (leValue ((seed entropy round).toList.take 16)) %
        totalStake (v :: rest)) 0 (v :: rest) with
    | none => rfl
    | some id => rfl

theorem selectLeader_of_loop {id : ValidatorId} (hne : totalStake members ≠ 0)
    (h : selectFrom (wordTarget entropy round members) 0 members = some id) :
    (mk members).selectLeader entropy round = .ok id := by
  cases members with
  | nil => exact absurd rfl hne
  | cons v rest => rw [selectLeader_cons, if_neg hne, h, Option.getD_some]

theorem selectLeader_mem (hne : members ≠ []) :
    ∃ v ∈ members, (mk members).selectLeader entropy round = .ok (idOf v) := by
  cases members with
  | nil => exact absurd rfl hne
  | cons v rest =>
      rw [selectLeader_cons]
      by_cases hzero : totalStake (v :: rest) = 0
      · rw [if_pos hzero]
        exact ⟨_, List.get_mem _ _, rfl⟩
      · rw [if_neg hzero]
        cases hselect : selectFrom (wordTarget entropy round (v :: rest)) 0 (v :: rest) with
        | none => exact ⟨_, List.getLast_mem (List.cons_ne_nil v rest), rfl⟩
        | some id =>
            rw [selectFrom_eq, Option.bind_eq_some_iff] at hselect
            obtain ⟨i, -, hi⟩ := hselect
            obtain ⟨w, hw, rfl⟩ := Option.map_eq_some_iff.mp hi
            exact ⟨w, List.mem_of_getElem? hw, rfl⟩

variable (hpos : 0 < (stakes members).sum) (hlt : (stakes members).sum < 2 ^ 128)

include hpos hlt

omit hpos in
theorem toNat_target :
    (wordTarget entropy round members).toNat =
      target entropy round (stakes members).sum := by
  rw [wordTarget, BitVec.toNat_umod, BitVec.toNat_ofNat, toNat_totalStake hlt,
    Nat.mod_eq_of_lt (ValidatorSet.leValue_take_lt _)]
  rfl

/-- The validator in whose interval the target lies is selected, by the loop. -/
theorem selectLeader_interval :
    ∃ (i : Nat) (hi : i < members.length),
      selectFrom (wordTarget entropy round members) 0 members = some (idOf members[i]) ∧
      (mk members).selectLeader entropy round = .ok (idOf members[i]) ∧
      ((stakes members).take i).sum ≤ target entropy round (stakes members).sum ∧
      target entropy round (stakes members).sum < ((stakes members).take (i + 1)).sum := by
  have htarget := toNat_target entropy round hlt
  have hsmall : (0 : U128).toNat + ((members.map ValidatorState.totalStake).map BitVec.toNat).sum <
      2 ^ 128 := by
    rw [toNat_stakes hlt]
    exact (Nat.zero_add _).trans_lt hlt
  have hdraw := drawFrom_toNat (wordTarget entropy round members) hsmall
  rw [htarget, toNat_stakes hlt] at hdraw
  have hsome :
      (drawFrom (target entropy round (stakes members).sum) 0 (stakes members)).isSome := by
    apply drawFrom_isSome (Nat.zero_le _)
    rw [Nat.zero_add]
    exact Nat.mod_lt _ hpos
  obtain ⟨i, hi⟩ := Option.isSome_iff_exists.mp hsome
  obtain ⟨hlen, hle, hexceeds⟩ := (drawFrom_nat_eq_some_iff (Nat.zero_le _)).mp hi
  rw [Nat.zero_add] at hle hexceeds
  have hlen' : i < members.length := by simpa [stakes] using hlen
  have hselect : selectFrom (wordTarget entropy round members) 0 members =
      some (idOf members[i]) := by
    rw [selectFrom_eq, ← hdraw]
    show (drawFrom _ 0 _).bind _ = _
    rw [hi, Option.bind_some, List.getElem?_eq_getElem hlen', Option.map_some]
  have hne : totalStake members ≠ 0 := by
    intro hzero
    have htotal := toNat_totalStake hlt
    rw [hzero] at htotal
    exact absurd htotal (Nat.ne_of_lt hpos)
  exact ⟨i, hlen', hselect, selectLeader_of_loop entropy round hne hselect, hle, hexceeds⟩

end

/-- The selection of a round by stake: along the increasing ids the target lies in the
interval of the validator that the loop finds, and one without a stake is not selected. -/
structure SelectsByStake [Blake3] (validators : List ValidatorState) (entropy : Bytes32)
    (round : UInt32) : Prop where
  perm : (new validators).activeValidators.Perm validators
  sorted : (new validators).activeValidators.Pairwise
    fun a b => compare (idOf a) (idOf b) = .lt
  interval : ∃ (i : Nat) (hi : i < (new validators).activeValidators.length),
    selectFrom (wordTarget entropy round (new validators).activeValidators) 0
      (new validators).activeValidators = some (idOf (new validators).activeValidators[i]) ∧
    (new validators).selectLeader entropy round =
      .ok (idOf (new validators).activeValidators[i]) ∧
    ((stakes (new validators).activeValidators).take i).sum ≤
      target entropy round (stakes validators).sum ∧
    target entropy round (stakes validators).sum <
      ((stakes (new validators).activeValidators).take (i + 1)).sum
  staked : ∀ v ∈ validators, stake v = 0 →
    (new validators).selectLeader entropy round ≠ .ok (idOf v)

theorem selectsByStake [Blake3] {validators : List ValidatorState}
    (hdistinct : (validators.map idOf).Nodup) (hlt : (stakes validators).sum < 2 ^ 128)
    (hpos : 0 < (stakes validators).sum) (entropy : Bytes32) (round : UInt32) :
    SelectsByStake validators entropy round := by
  have hperm := perm_new validators
  have hsum : (stakes (new validators).activeValidators).sum = (stakes validators).sum :=
    (hperm.map stake).sum_eq
  rw [← hsum] at hpos hlt
  have hinterval := selectLeader_interval entropy round hpos hlt
  rw [hsum] at hinterval
  refine ⟨hperm, pairwise_lt_new hdistinct, hinterval, ?_⟩
  intro v hv hzero hselected
  obtain ⟨i, hi, -, hselect, hle, hexceeds⟩ := hinterval
  -- the id selected is that of a validator whose interval is not empty
  have hid : idOf (new validators).activeValidators[i] = idOf v :=
    Except.ok.inj (hselect.symm.trans hselected)
  have hmem : (new validators).activeValidators[i] ∈ validators :=
    hperm.mem_iff.mp (List.getElem_mem hi)
  have heq := List.inj_on_of_nodup_map hdistinct hmem hv hid
  have hi' : i < (stakes (new validators).activeValidators).length := by simpa [stakes] using hi
  have hstake : (stakes (new validators).activeValidators)[i] = 0 := by
    rw [← hzero, ← heq]
    exact List.getElem_map _
  rw [List.sum_take_succ _ i hi', hstake, Nat.add_zero] at hexceeds
  exact absurd hle (Nat.not_le.mpr hexceeds)

/-- For every list of validators with different keys and stakes that add up to a `u128`:
every order of the list selects the same id in every round, one of theirs, and selects by
stake if there is any. -/
theorem selectLeader_spec [Blake3] {validators : List ValidatorState} (hne : validators ≠ [])
    (hdistinct : (validators.map fun v => v.registration.blsPubkey).Nodup)
    (hlt : (stakes validators).sum < 2 ^ 128) (entropy : Bytes32) (round : UInt32) :
    (∀ validators', validators'.Perm validators →
      (new validators').selectLeader entropy round = (new validators).selectLeader entropy round) ∧
    (∃ v ∈ validators, (new validators).selectLeader entropy round = .ok (idOf v)) ∧
    (0 < (stakes validators).sum → SelectsByStake validators entropy round) := by
  refine ⟨?_, ?_, fun hpos => selectsByStake hdistinct hlt hpos entropy round⟩
  · intro validators' h
    rw [new_perm hdistinct h]
  · have hperm := perm_new validators
    have hmembers : (new validators).activeValidators ≠ [] := by
      intro hnil
      rw [hnil] at hperm
      exact hne hperm.symm.eq_nil
    obtain ⟨v, hv, hselect⟩ := selectLeader_mem entropy round hmembers
    exact ⟨v, hperm.mem_iff.mp hv, hselect⟩

/-! ## Three validators -/

def committee : List ValidatorState :=
  [ValidatorState.blank 2, { ValidatorState.blank 1 with ownStake := 0 },
    { ValidatorState.blank 3 with delegatedStake := 7 }]

theorem committee_select :
    letI := Blake3.sum
    committee ≠ [] ∧ (committee.map fun v => v.registration.blsPubkey).Nodup ∧
    (∀ validators', validators'.Perm committee →
      (new validators').selectLeader (fill 32 0) 1 = (new committee).selectLeader (fill 32 0) 1) ∧
    (∃ v ∈ committee, (new committee).selectLeader (fill 32 0) 1 = .ok (idOf v)) ∧
    (0 < (stakes committee).sum → SelectsByStake committee (fill 32 0) 1) := by
  let _ := Blake3.sum
  have hne : committee ≠ [] := by decide
  have hdistinct : (committee.map fun v => v.registration.blsPubkey).Nodup := by decide
  exact ⟨hne, hdistinct, selectLeader_spec hne hdistinct (by decide) (fill 32 0) 1⟩

end LeaderSelector

end NoirNet
